import QueryPlan.Text.Quoted
import QueryPlan.Text.Utf8

/-!
# Files and directories

A `FileTree` is a snapshot of the part of a file system that a program reads: files as bytes,
directories as named entries. A `FileSystem` adds the directory that relative paths start from.
Paths are resolved component by component, and reading a file gives its text or says why it has
none.
-/

set_option autoImplicit false

namespace QueryPlan

open QueryPlan.Text

/-- A file, or a directory with its entries. -/
inductive FileTree
  | file (bytes : List UInt8)
  | directory (entries : List (String × FileTree))
deriving Inhabited

/-- Why a source file cannot be read. -/
inductive ReadError
  /-- No file is at that path. -/
  | notAFile (path : String)
  /-- The file is not a text. -/
  | notText (path : String) (fault : Utf8Fault)
deriving DecidableEq, Repr

namespace ReadError

/-- The text that reports an error. -/
def message : ReadError → String
  | notAFile path => "Path " ++ quotedPath path ++ " does not point to a file"
  | notText path fault => "File at " ++ quotedPath path ++ " is not valid utf-8: " ++ fault.message

end ReadError

namespace FileTree

/-- The directory without entries. -/
def empty : FileTree := directory []

/-- The entry of a directory with that name. -/
def entry? (t : FileTree) (name : String) : Option FileTree :=
  match t with
  | file _ => none
  | directory entries => (entries.find? fun e => e.1 = name).map Prod.snd

def isDirectory : FileTree → Bool
  | file _ => false
  | directory _ => true

/-- Puts a tree at a place below a directory, making the directories on the way. -/
def insertAt (t : FileTree) : List String → FileTree → FileTree
  | [], new => new
  | name :: rest, new =>
    let below := ((t.entry? name).getD empty).insertAt rest new
    match t with
    | file _ => directory [(name, below)]
    | directory entries =>
      if entries.any fun e => e.1 = name then
        directory (entries.map fun e => if e.1 = name then (name, below) else e)
      else directory (entries ++ [(name, below)])

/-- The names between the slashes of a path. -/
def components (path : String) : List String := path.splitOn "/"

/-- Puts a tree at a path. -/
def insert (t : FileTree) (path : String) (new : FileTree) : FileTree :=
  t.insertAt ((components path).filter fun c => c ≠ "" && c ≠ ".") new

/-- A place in a tree: what is there, and the directories that lead to it, the nearest first,
each with the name that was followed from it. -/
structure Place where
  tree : FileTree
  parents : List (FileTree × String)

namespace Place

/-- The names that lead from the root to a place. -/
def names (p : Place) : List String := (p.parents.map Prod.snd).reverse

/-- Follows one component of a path: a name, the directory itself, or its parent. Only a
directory has components below it. -/
def step (p : Place) (component : String) : Option Place :=
  if p.tree.isDirectory then
    if component = "" || component = "." then some p
    else if component = ".." then
      match p.parents with
      | [] => some p
      | (t, _) :: rest => some ⟨t, rest⟩
    else (p.tree.entry? component).map fun t => ⟨t, (p.tree, component) :: p.parents⟩
  else none

end Place

mutual

/-- All files at or below a tree, each with the names that lead to it. -/
def files : FileTree → List (List String)
  | file _ => [[]]
  | directory entries => filesOf entries

/-- All files below the entries of a directory. -/
def filesOf : List (String × FileTree) → List (List String)
  | [] => []
  | (name, t) :: rest => (t.files.map (name :: ·)) ++ filesOf rest

end

end FileTree

/-! ## File systems -/

/-- A tree with the names that lead to the working directory. -/
structure FileSystem where
  root : FileTree
  workingDirectory : List String

namespace FileSystem

open FileTree (Place components)

/-- The place that a path leads to. A path that starts with a slash starts from the root, and
every other one from the working directory; the empty path leads nowhere. -/
def resolve? (fs : FileSystem) (path : String) : Option Place :=
  if path.isEmpty then none
  else
    let root : Place := ⟨fs.root, []⟩
    let start :=
      if path.startsWith "/" then some root else fs.workingDirectory.foldlM Place.step root
    start.bind fun p => (components path).foldlM Place.step p

/-- The text of the file at a path. -/
def readText (fs : FileSystem) (path : String) : Except ReadError String :=
  match fs.resolve? path with
  | some ⟨.file bytes, _⟩ =>
    match decode bytes with
    | .ok s => .ok s
    | .error fault => .error (.notText path fault)
  | _ => .error (.notAFile path)

end FileSystem

/-- The extension of a file name: what follows its last dot, unless that is its first
character. -/
def extension? (name : String) : Option String :=
  match (name.splitOn ".").reverse with
  | [] | [_] | [_, ""] => none
  | extension :: _ => some extension

end QueryPlan
