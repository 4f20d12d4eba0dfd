import QueryPlan.Files.FileTree

/-!
# Finding schema files

Schemas are given as files and as directories. A file that is named is taken whatever its name;
of a directory, all files with certain extensions are taken, at any depth. Each file is taken
once, in the order of the names that lead to it from the root, since the order of the sources
decides the order of the types.
-/

set_option autoImplicit false

namespace QueryPlan.CommandLine

/-- The files that a path stands for, as names from the root; none if it leads nowhere. -/
def filesAt (fs : FileSystem) (extensions : List String) (path : String) :
    Option (List (List String)) :=
  match fs.resolve? path with
  | none => none
  | some p =>
    match p.tree with
    | .file _ => some [p.names]
    | .directory _ =>
      let wanted := p.tree.files.filter fun names =>
        (names.getLast?.bind extension?).any (· ∈ extensions)
      some (wanted.map (p.names ++ ·))

/-- Leaves one of equal neighbours. -/
def dropRepeats {α : Type} [DecidableEq α] : List α → List α
  | [] => []
  | [a] => [a]
  | a :: b :: rest =>
    if a = b then dropRepeats (b :: rest) else a :: dropRepeats (b :: rest)

/-- The absolute path of a file. -/
def absolutePath (names : List String) : String := "/" ++ "/".intercalate names

/-- An extension as it may be written on the command line, with dots in front. -/
def bareExtension (e : String) : String := String.ofList (e.toList.dropWhile (· = '.'))

/-- The schema files at or below some paths, or those of the paths that lead nowhere. -/
def schemaFiles (fs : FileSystem) (paths extensions : List String) :
    Except (List String) (List String) :=
  let extensions := extensions.map bareExtension
  match paths.filter fun p => (filesAt fs extensions p).isNone with
  | [] =>
    let found := paths.flatMap fun p => (filesAt fs extensions p).getD []
    let sorted := found.mergeSort fun a b => decide (¬ b < a)
    .ok ((dropRepeats sorted).map absolutePath)
  | missing => .error missing

end QueryPlan.CommandLine
