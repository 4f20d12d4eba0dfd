import QueryPlan.Document.Build
import QueryPlan.OrderedMap

/-!
# The index of fragments

Fragments are found by name while planning, and following them must come to an end: an index is
refused if two fragments share a name or if spreads lead from a fragment back to itself.

Cycles are found by a depth-first search along spreads. A fragment is entered at most once; the
`path` holds those that are being explored, and `finished` those that have been. A spread of a
fragment on the path closes a cycle, which is reported unless a rotation of it already was.
-/

set_option autoImplicit false

namespace QueryPlan

/-- Why fragments cannot be indexed. -/
inductive FragmentError
  /-- A fragment has the name of an earlier one. -/
  | duplicate (name : String) (first second : SyntaxLocation)
  /-- Spreads lead along these names, of which the last is the first again. -/
  | cycle (path : List String)
deriving DecidableEq, Repr

namespace FragmentError

/-- The text that reports an error. -/
def message : FragmentError → String
  | duplicate name _ _ => s!"Duplicate fragment definition: `{name}`"
  | cycle path => "Fragment cycle detected: " ++ " → ".intercalate path

end FragmentError

/-- The names of the fragments that are spread in a selection set, at any depth and in order,
following at most `fuel` nested sets. -/
def SyntaxArena.spreadNames (a : SyntaxArena) : Nat → SelectionSetId → List String
  | 0, _ => []
  | fuel + 1, id =>
    match a.selectionSet? id with
    | none => []
    | some set => set.selections.flatMap fun
      | .field f =>
        match (a.field? f).bind FieldNode.selectionSet with
        | none => []
        | some child => a.spreadNames fuel child
      | .spread s =>
        match a.spread? s with
        | none => []
        | some node => [node.fragmentName]
      | .inlineFragment i =>
        match a.inlineFragment? i with
        | none => []
        | some node => a.spreadNames fuel node.selectionSet

/-! ## Cycles -/

/-- What a search for cycles has seen. -/
structure CycleSearch where
  /-- The fragments that have been explored, in the order in which they were done with. -/
  finished : List String
  /-- The cycles found, in order, each ending with its first name. -/
  cycles : List (List String)
deriving Repr

namespace CycleSearch

def start : CycleSearch := ⟨[], []⟩

/-- The least of some names. -/
def least (first : String) (rest : List String) : String :=
  rest.foldl (fun a b => if b < a then b else a) first

/-- Rotates the names of a cycle so that it begins with the least one. Rotations of one cycle
come out equal. -/
def rotate (names : List String) : List String :=
  match names with
  | [] => []
  | n :: rest =>
    let m := least n rest
    names.dropWhile (· ≠ m) ++ names.takeWhile (· ≠ m)

/-- The names of a cycle, without the repetition at its end, from its least name on. -/
def normalize (cycle : List String) : List String := rotate cycle.dropLast

/-- Reports a cycle unless a rotation of it was reported before. -/
def report (s : CycleSearch) (cycle : List String) : CycleSearch :=
  if s.cycles.any fun c => normalize c = normalize cycle then s
  else { s with cycles := s.cycles ++ [cycle] }

/-- Goes to a fragment from the last one on the path. `spreads` gives what the body of a
fragment spreads; names that it does not know are passed over. The path never repeats a name,
so as much fuel as there are fragments is enough. -/
def visit (spreads : String → Option (List String)) :
    Nat → List String → CycleSearch → String → CycleSearch
  | fuel, path, s, name =>
    if name ∈ path then s.report (path.dropWhile (· ≠ name) ++ [name])
    else if name ∈ s.finished then s
    else
      match fuel, spreads name with
      | fuel + 1, some names =>
        let s := names.foldl (fun s n => visit spreads fuel (path ++ [name]) s n) s
        { s with finished := s.finished ++ [name] }
      | _, _ => s

end CycleSearch

/-! ## The index -/

/-- Fragments by name, in document order. -/
structure FragmentIndex where
  fragments : OrderedMap String FragmentNode

namespace FragmentIndex

/-- The fragments of a document, the first of each name, and an error for every other one. -/
def collect (fragments : List FragmentNode) :
    OrderedMap String FragmentNode × List FragmentError :=
  fragments.foldl
    (fun (m, errors) f =>
      match m.get? f.name with
      | some e => (m, errors ++ [.duplicate f.name e.location f.location])
      | none => (m.insert f.name f, errors))
    (.empty, [])

/-- What the body of an indexed fragment spreads. -/
def spreadsOf (m : OrderedMap String FragmentNode) (a : SyntaxArena) (name : String) :
    Option (List String) :=
  (m.get? name).map fun f => a.spreadNames a.selectionSets.size f.selectionSet

/-- The search for cycles from every fragment in turn. -/
def search (m : OrderedMap String FragmentNode) (a : SyntaxArena) : CycleSearch :=
  m.keys.foldl (fun s name => CycleSearch.visit (spreadsOf m a) m.size [] s name) .start

/-- Indexes the fragments of a document. All errors are reported: duplicates first, then
cycles. -/
def build (d : Document) : Except (List FragmentError) FragmentIndex :=
  let (m, duplicates) := collect d.fragments
  match duplicates ++ (search m d.syntaxArena).cycles.map FragmentError.cycle with
  | [] => .ok ⟨m⟩
  | errors => .error errors

def size (i : FragmentIndex) : Nat := i.fragments.size

def isEmpty (i : FragmentIndex) : Bool := i.fragments.isEmpty

/-- The names of the fragments, in document order. -/
def names (i : FragmentIndex) : List String := i.fragments.keys

/-- The fragment of that name. -/
def resolve? (i : FragmentIndex) (name : String) : Option FragmentNode :=
  i.fragments.get? name

/-- The text that reports a name without a fragment. -/
def undefinedMessage (name : String) : String :=
  s!"No fragment named `{name}` is defined in the document"

end FragmentIndex

end QueryPlan
