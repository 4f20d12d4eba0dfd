import QueryPlan.CommandLine.Plan

/-!
# The program

Reads the files that the arguments name, and prints a plan or what went wrong.
-/

set_option autoImplicit false

namespace QueryPlan.CommandLine

/-- What is said about arguments that make no invocation. -/
def usage : String :=
  "Usage: query-plan [-v] plan --schema <FILE_OR_DIR> [--schema-file-exts <EXT,EXT>]\n" ++
    "         [--operation-name <NAME>] <OPERATION_FILE>\n\n" ++
    "Compiles an operation against a schema and prints its plan."

/-- How the program reports that it was not told what to do. -/
def UsageStop.report : UsageStop → String
  | .help => usage
  | .version => "query-plan 0.1.0"
  | .missingArgument => "error: a required argument is missing\n\n" ++ usage
  | .missingValue => "error: a value is missing\n\n" ++ usage
  | .unexpectedValue => "error: a flag takes no value\n\n" ++ usage
  | .unknownCommand => "error: there is no such command\n\n" ++ usage
  | .unknownArgument => "error: unexpected argument\n\n" ++ usage
  | .repeatedArgument => "error: an argument is given more than once\n\n" ++ usage

/-- What is at a path of the disk, if it can be read; directories at most `depth` levels
deep. -/
def snapshot : Nat → String → IO (Option FileTree)
  | 0, _ => return none
  | depth + 1, path => do
    try
      let real ← IO.FS.realPath path
      if ← real.isDir then
        let mut entries := []
        for e in ← real.readDir do
          if let some t ← snapshot depth e.path.toString then
            entries := (e.fileName, t) :: entries
        return some (.directory entries)
      else return some (.file (← IO.FS.readBinFile real).toList)
    catch _ => return none

/-- The part of the disk at and below some paths. Links are followed: what is behind one also
stands where the path says. -/
def snapshots (paths : List String) : IO FileSystem := do
  let here := (← IO.FS.realPath ".").toString
  let mut root := FileTree.empty.insert here .empty
  for path in paths do
    if let some t ← snapshot 256 path then
      root := root.insert (← IO.FS.realPath path).toString t
      unless (FileTree.components path).contains ".." do
        root := root.insert (if path.startsWith "/" then path else here ++ "/" ++ path) t
  return ⟨root, (FileTree.components here).filter (· ≠ "")⟩

end QueryPlan.CommandLine

open QueryPlan QueryPlan.CommandLine in
def main (arguments : List String) : IO UInt32 := do
  match Invocation.ofArguments arguments with
  | .error stop =>
    if stop.exitCode = 0 then IO.println stop.report else IO.eprintln stop.report
    return stop.exitCode.toUInt32
  | .ok ⟨none, _⟩ =>
    IO.println usage
    return 0
  | .ok ⟨some (.plan options), _⟩ =>
    let fs ← snapshots (options.operationFile :: options.schemaPaths)
    match options.run fs with
    | .ok text =>
      IO.println text
      return 0
    | .error text =>
      IO.eprintln text
      return 1
