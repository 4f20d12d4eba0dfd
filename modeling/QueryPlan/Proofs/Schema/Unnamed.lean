import Mathlib
import QueryPlan.Proofs.Run
import QueryPlan.Schema.Build

/-!
# Sources without a name

A source that comes without a path gets a name that counts such sources, and is taken up like one
that has this name for its path (`Load.run_eq`). The counter does not matter for anything else. It
has sixteen bits and starts over behind its end, so that the names repeat from source 65536 on.
-/

set_option autoImplicit false

namespace QueryPlan

open QueryPlan.Syntax

/-- A loop commutes with a map of the state if each round does. -/
theorem foldlM_map {m : Type → Type} [Monad m] [LawfulMonad m] {α β : Type} {f : β → α → m β}
    {g : β → β} {xs : List α} (h : ∀ b x, f (g b) x = g <$> f b x) (b : β) :
    xs.foldlM f (g b) = g <$> xs.foldlM f b := by
  induction xs generalizing b with
  | nil => exact (map_pure g b).symm
  | cons x xs ih =>
      rw [List.foldlM_cons, List.foldlM_cons, h, bind_map_left, map_bind]
      exact bind_congr ih

namespace SchemaBuilder

/-! ## The counter on its own -/

/-- The builder with another count of unnamed sources. -/
def recount (n : UInt16) (b : SchemaBuilder) : SchemaBuilder := { b with unnamedSources := n }

variable {b b' : SchemaBuilder}

theorem nameRoot_recount (n : UInt16) (location : SchemaLocation) (b : SchemaBuilder)
    (r : OperationKind × Option String) :
    nameRoot location (b.recount n) r = recount n <$> nameRoot location b r := by
  obtain ⟨kind, none | type⟩ := r
  · rfl
  · have hroot : (b.recount n).root? kind = b.root? kind := by cases kind <;> rfl
    rw [nameRoot, nameRoot, hroot]
    cases b.root? kind with
    | none => cases kind <;> rfl
    | some e => rfl

theorem defineType_recount (n : UInt16) (b : SchemaBuilder) (file : String) (d : TypeDeclaration) :
    (b.recount n).defineType file d = recount n <$> b.defineType file d := by
  unfold defineType
  split
  · rfl
  · rw [map_bind, show (b.recount n).types = b.types from rfl]
    refine bind_congr fun t => ?_
    cases b.types.get? d.name with
    | none => rfl
    | some e => rfl

theorem addDefinition_recount (n : UInt16) (file : String) (b : SchemaBuilder)
    (d : SchemaDefinition) :
    addDefinition file (b.recount n) d = recount n <$> addDefinition file b d := by
  cases d with
  | roots r => exact foldlM_map (nameRoot_recount n _) b
  | type d => exact defineType_recount n b file d
  | extension d => rfl
  | directive d => rfl

/-- Taking up definitions does not look at the counter. -/
theorem addDocument_recount (n : UInt16) (b : SchemaBuilder) (file : String)
    (ds : SchemaDocument) :
    (b.recount n).addDocument file ds = recount n <$> b.addDocument file ds :=
  foldlM_map (addDefinition_recount n file) b

theorem load_recount (n : UInt16) (b : SchemaBuilder) (path source : String) :
    (b.recount n).load (some path) source = recount n <$> b.load (some path) source := by
  unfold load
  cases SchemaDocument.ofSource? source with
  | none => rfl
  | some definitions => exact addDocument_recount n b path definitions

theorem loadFiles_recount (n : UInt16) (b : SchemaBuilder) (files : FileSystem)
    (paths : List String) :
    (b.recount n).loadFiles files paths = recount n <$> b.loadFiles files paths := by
  refine foldlM_map (fun b path => ?_) b
  cases files.readText path with
  | error e => rfl
  | ok source => exact load_recount n b path source

/-- An unnamed source is taken up like one that has its name for a path, and then counted. -/
theorem load_none (b : SchemaBuilder) (source : String) :
    b.load none source =
      recount (b.unnamedSources + 1) <$> b.load (some (b.nameSource none).1) source := by
  unfold load
  cases SchemaDocument.ofSource? source with
  | none => rfl
  | some definitions => exact addDocument_recount _ b _ definitions

/-! ## Loads -/

/-- One call that loads sources: a text with or without a path, or the files at some paths. -/
inductive Load
  | text (path : Option String) (source : String)
  | files (files : FileSystem) (paths : List String)

namespace Load

def run (b : SchemaBuilder) : Load → Except SchemaError SchemaBuilder
  | text path source => b.load path source
  | files fs paths => b.loadFiles fs paths

/-- Whether the load is that of an unnamed source. -/
def unnamed : Load → Bool
  | text none _ => true
  | _ => false

/-- The load of an unnamed source with a name for its path; any other one as it is. -/
def named (name : String) : Load → Load
  | text none source => text (some name) source
  | l => l

/-- A load that has a path neither changes the counter nor looks at it. -/
theorem run_recount (n : UInt16) (b : SchemaBuilder) (name : String) (l : Load) :
    (l.named name).run (b.recount n) = recount n <$> (l.named name).run b := by
  match l with
  | text none source => exact load_recount n b name source
  | text (some path) source => exact load_recount n b path source
  | files fs paths => exact loadFiles_recount n b fs paths

/-- An unnamed source is taken up under its name, and counted. -/
theorem run_eq (b : SchemaBuilder) (l : Load) :
    l.run b = recount (b.unnamedSources + UInt16.ofNat l.unnamed.toNat) <$>
      (l.named (b.nameSource none).1).run b := by
  have hsame : b.unnamedSources + UInt16.ofNat false.toNat = b.unnamedSources :=
    UInt16.add_zero b.unnamedSources
  match l with
  | text none source => exact load_none b source
  | text (some path) source =>
      rw [show (text (some path) source).unnamed = false from rfl, hsame]
      exact load_recount b.unnamedSources b path source
  | files fs paths =>
      rw [show (files fs paths).unnamed = false from rfl, hsame]
      exact loadFiles_recount b.unnamedSources b fs paths

theorem unnamedSources_of_run {l : Load} (h : l.run b = .ok b') :
    b'.unnamedSources = b.unnamedSources + UInt16.ofNat l.unnamed.toNat := by
  rw [run_eq] at h
  cases hnamed : (l.named (b.nameSource none).1).run b with
  | error e =>
      rw [hnamed] at h
      cases h
  | ok b₁ =>
      rw [hnamed] at h
      cases h
      rfl

end Load

/-! ## Sequences of loads -/

/-- Loads one after another, up to the first one that fails. -/
def runAll (b : SchemaBuilder) (ls : List Load) : Except SchemaError SchemaBuilder :=
  ls.foldlM Load.run b

/-- The name that a load makes up, if it does. -/
def Load.newNames (b : SchemaBuilder) (l : Load) : List String :=
  if l.unnamed then [(b.nameSource none).1] else []

/-- The names that the unnamed sources are given in turn. -/
def givenNames (b : SchemaBuilder) : List Load → List String
  | [] => []
  | l :: ls =>
    match l.run b with
    | .error _ => l.newNames b
    | .ok b' => l.newNames b ++ b'.givenNames ls

/-- The name of the unnamed source number `i`. -/
def madeUpName (i : Nat) : String := s!"str://{i % 65536}"

/-- The loads with the names of unnamed sources from number `i` on for their paths. -/
def withNames : Nat → List Load → List Load
  | _, [] => []
  | i, l :: ls => l.named (madeUpName i) :: withNames (i + l.unnamed.toNat) ls

theorem nameSource_none {i : Nat} (h : b.unnamedSources = UInt16.ofNat i) :
    (b.nameSource none).1 = madeUpName i := by
  rw [nameSource, h, UInt16.toNat_ofNat']
  rfl

/-- One load moves the number of the next unnamed source on. -/
theorem unnamedSources_next {i : Nat} {l : Load} (h : b.unnamedSources = UInt16.ofNat i)
    (hrun : l.run b = .ok b') : b'.unnamedSources = UInt16.ofNat (i + l.unnamed.toNat) := by
  rw [Load.unnamedSources_of_run hrun, h, UInt16.ofNat_add]

theorem newNames_eq {i : Nat} (h : b.unnamedSources = UInt16.ofNat i) (l : Load) :
    l.newNames b = (List.range' i l.unnamed.toNat).map madeUpName := by
  rw [Load.newNames, nameSource_none h]
  cases l.unnamed <;> rfl

/-- The given names are those of the numbers that come next. -/
theorem exists_givenNames {i : Nat} (h : b.unnamedSources = UInt16.ofNat i) (ls : List Load) :
    ∃ k, b.givenNames ls = (List.range' i k).map madeUpName := by
  induction ls generalizing b i with
  | nil => exact ⟨0, rfl⟩
  | cons l ls ih =>
      rw [givenNames, newNames_eq h]
      cases hrun : l.run b with
      | error e => exact ⟨_, rfl⟩
      | ok b' =>
          obtain ⟨k, hk⟩ := ih (unnamedSources_next h hrun)
          refine ⟨l.unnamed.toNat + k, ?_⟩
          rw [← List.range'_append_1, List.map_append, ← hk]

theorem runAll_withNames {i : Nat} (h : b.unnamedSources = UInt16.ofNat i) (ls : List Load)
    (n : UInt16) : (b.recount n).runAll (withNames i ls) = recount n <$> b.runAll ls := by
  induction ls generalizing b i with
  | nil => rfl
  | cons l ls ih =>
      rw [withNames, runAll, runAll, List.foldlM_cons, List.foldlM_cons, Load.run_recount, map_bind]
      have hrun := l.run_eq b
      rw [nameSource_none h] at hrun
      cases hnamed : (l.named (madeUpName i)).run b with
      | error e =>
          rw [hnamed] at hrun
          rw [hrun]
          rfl
      | ok b₁ =>
          rw [hnamed] at hrun
          have hnext := unnamedSources_next h hrun
          rw [hrun]
          exact ih hnext

/-- Where all loads succeed, every unnamed source is given a name and counted. -/
theorem counted_of_runAll {i : Nat} {ls : List Load} (h : b.unnamedSources = UInt16.ofNat i)
    (hrun : b.runAll ls = .ok b') :
    (b.givenNames ls).length = ls.countP Load.unnamed ∧
      b'.unnamedSources = UInt16.ofNat (i + ls.countP Load.unnamed) := by
  induction ls generalizing b i with
  | nil =>
      cases hrun
      exact ⟨rfl, h⟩
  | cons l ls ih =>
      rw [runAll, List.foldlM_cons] at hrun
      obtain ⟨b₁, hone, hrest⟩ := ok_bind_iff.1 hrun
      obtain ⟨hlength, hcount⟩ := ih (unnamedSources_next h hone) hrest
      have hsum : l.unnamed.toNat + ls.countP Load.unnamed = (l :: ls).countP Load.unnamed := by
        rw [List.countP_cons, Nat.add_comm]
        cases l.unnamed <;> rfl
      rw [givenNames, hone, List.length_append, hlength, hcount, newNames_eq h, List.length_map,
        List.length_range', Nat.add_assoc, hsum]
      exact ⟨rfl, rfl⟩

theorem runAll_cons {l : Load} (h : l.run b = .ok b') (ls : List Load) :
    b.runAll (l :: ls) = b'.runAll ls := by
  rw [runAll, List.foldlM_cons, h]
  rfl

theorem runAll_append {ls : List Load} (h : b.runAll ls = .ok b') (ls' : List Load) :
    b.runAll (ls ++ ls') = b'.runAll ls' := by
  rw [runAll] at h
  rw [runAll, List.foldlM_append, h]
  rfl

theorem givenNames_append {ls : List Load} (h : b.runAll ls = .ok b') (ls' : List Load) :
    b.givenNames (ls ++ ls') = b.givenNames ls ++ b'.givenNames ls' := by
  induction ls generalizing b with
  | nil =>
      cases h
      rfl
  | cons l ls ih =>
      rw [runAll, List.foldlM_cons] at h
      obtain ⟨b₁, hone, hrest⟩ := ok_bind_iff.1 h
      rw [List.cons_append, givenNames, givenNames, hone]
      simp only [ih hrest, List.append_assoc]

/-! ## Loads to no effect -/

theorem ofSource?_scalarID : SchemaDocument.ofSource? "scalar ID" =
    some [.type ⟨"ID", none, .scalar, ⟨1, 1⟩⟩] := by
  cbv

/-- A scalar that every schema has may be declared at any time: only the source is counted. -/
theorem run_scalarID (b : SchemaBuilder) (path : Option String) :
    (Load.text path "scalar ID").run b = .ok (b.nameSource path).2 := by
  rw [Load.run, load, ofSource?_scalarID]
  rfl

/-- Loads that do nothing but count do so any number of times. -/
theorem runAll_replicate {l : Load} (h : ∀ b, l.run b = .ok (b.recount (b.unnamedSources + 1)))
    (n : Nat) (b : SchemaBuilder) :
    b.runAll (List.replicate n l) = .ok (b.recount (b.unnamedSources + UInt16.ofNat n)) := by
  induction n generalizing b with
  | zero => exact congrArg (fun k => Except.ok (b.recount k)) (UInt16.add_zero _).symm
  | succ n ih =>
      have hcount :
          b.unnamedSources + 1 + UInt16.ofNat n = b.unnamedSources + UInt16.ofNat (n + 1) := by
        rw [Nat.add_comm n, UInt16.ofNat_add, UInt16.add_assoc]
        rfl
      rw [List.replicate_succ, runAll_cons (h b)]
      exact (ih _).trans (congrArg (fun k => Except.ok (b.recount k)) hcount)

/-! ## Which names repeat -/

theorem madeUpName_inj {i j : Nat} : madeUpName i = madeUpName j ↔ i % 65536 = j % 65536 := by
  constructor
  · intro h
    exact Nat.repr_injective ((String.append_right_inj _).1 h)
  · intro h
    rw [madeUpName, madeUpName, h]

theorem nodup_madeUpNames (n : Nat) :
    ((List.range n).map madeUpName).Nodup ↔ n ≤ 65536 := by
  rw [List.nodup_map_iff_inj_on List.nodup_range]
  simp only [List.mem_range, madeUpName_inj]
  constructor
  · intro h
    by_contra hn
    have h0 := h 0 (by omega) 65536 (by omega) rfl
    cases h0
  · intro h i hi j hj hij
    omega

/-- **Unnamed sources are numbered through, up to the end of the counter.** Whatever is loaded, the
unnamed source number `i` is called `str://` and `i` modulo 65536, and is taken up like a source
with that path; so no two of them share a name if and only if there are at most 65536. -/
theorem unnamed_sources_numbered (ls : List Load) :
    empty.givenNames ls = (List.range (empty.givenNames ls).length).map madeUpName ∧
    ((empty.givenNames ls).Nodup ↔ (empty.givenNames ls).length ≤ 65536) ∧
    empty.runAll (withNames 0 ls) = recount 0 <$> empty.runAll ls ∧
    ∀ b, empty.runAll ls = .ok b →
      (empty.givenNames ls).length = ls.countP Load.unnamed ∧
        b.unnamedSources = UInt16.ofNat (ls.countP Load.unnamed) := by
  obtain ⟨k, hk⟩ := exists_givenNames (b := empty) (i := 0) rfl ls
  rw [← List.range_eq_range'] at hk
  have hlength : (empty.givenNames ls).length = k := by
    rw [hk, List.length_map, List.length_range]
  refine ⟨?_, ?_, runAll_withNames (b := empty) (i := 0) rfl ls 0, fun b hb => ?_⟩
  · rw [hlength]
    exact hk
  · rw [hlength, hk]
    exact nodup_madeUpNames k
  · have hcounted := counted_of_runAll (i := 0) rfl hb
    rwa [Nat.zero_add] at hcounted

/-- Two unnamed sources, and one with a path between them. -/
def mixed : List Load :=
  [.text none "scalar ID", .text (some "ids.graphql") "scalar ID", .text none "scalar ID"]

theorem unnamed_sources_numbered_mixed :
    empty.runAll mixed = .ok (empty.recount 2) ∧
      empty.givenNames mixed = ["str://0", "str://1"] := by
  have hrun : empty.runAll mixed = .ok (empty.recount 2) := by
    rw [mixed, runAll_cons (run_scalarID _ _), runAll_cons (run_scalarID _ _),
      runAll_cons (run_scalarID _ _)]
    rfl
  obtain ⟨hnames, -, -, hcounted⟩ := unnamed_sources_numbered mixed
  rw [(hcounted _ hrun).1] at hnames
  exact ⟨hrun, hnames.trans (by decide)⟩

/-! ### A name that comes twice -/

/-- One type, a scalar declared again and again to no effect, and the type once more. -/
def wrapping : List Load :=
  .text none "scalar A" :: List.replicate 65535 (.text none "scalar ID") ++ [.text none "scalar A"]

theorem ofSource?_scalarA : SchemaDocument.ofSource? "scalar A" =
    some [.type ⟨"A", none, .scalar, ⟨1, 1⟩⟩] := by
  cbv

/-- A builder that has taken up the type first. -/
def withA : SchemaBuilder :=
  { empty with
    types := empty.types.insert "A" (.scalar ⟨"A", none, .source "str://0" ⟨1, 1⟩⟩)
    unnamedSources := 1 }

theorem run_scalarA : (Load.text none "scalar A").run empty = .ok withA := by
  rw [Load.run, load, ofSource?_scalarA]
  rfl

theorem run_scalarA_again : (Load.text none "scalar A").run (withA.recount 0) =
    .error (.duplicateType "A" (.source "str://0" ⟨1, 1⟩) (.source "str://0" ⟨1, 1⟩)) := by
  rw [Load.run, load, ofSource?_scalarA]
  rfl

/-- After all these the counter is where it started. -/
theorem runAll_scalarID :
    withA.runAll (List.replicate 65535 (.text none "scalar ID")) = .ok (withA.recount 0) :=
  runAll_replicate (fun b => run_scalarID b none) 65535 withA

/-- Unnamed sources 0 and 65536 have one name. -/
theorem unnamed_sources_wrap :
    empty.runAll wrapping =
        .error (.duplicateType "A" (.source "str://0" ⟨1, 1⟩) (.source "str://0" ⟨1, 1⟩)) ∧
      (empty.givenNames wrapping)[65536]? = some "str://0" := by
  have hfront : empty.runAll (.text none "scalar A" ::
      List.replicate 65535 (.text none "scalar ID")) = .ok (withA.recount 0) := by
    rw [runAll_cons run_scalarA, runAll_scalarID]
  have hcount : (Load.text none "scalar A" ::
      List.replicate 65535 (.text none "scalar ID")).countP Load.unnamed = 65536 := by
    rw [List.countP_cons, List.countP_replicate]
    rfl
  have hlength := (counted_of_runAll (i := 0) rfl hfront).1.trans hcount
  constructor
  · rw [wrapping, runAll_append hfront, runAll, List.foldlM_cons, run_scalarA_again]
    rfl
  · rw [wrapping, givenNames_append hfront, List.getElem?_append_right (le_of_eq hlength), hlength,
      givenNames, run_scalarA_again]
    rfl

end SchemaBuilder

end QueryPlan
