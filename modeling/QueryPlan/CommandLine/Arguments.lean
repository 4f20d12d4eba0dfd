/-!
# Command-line arguments

The program has the flags `-v`, `-h` and `-V`, and one command, `plan`, with options and an
operand of its own. Arguments are read from left to right, and the first mistake decides. The
value of an option or operand is checked only when the next one comes or the arguments end, so a
mistake that lies behind it may be reported before it.
-/

set_option autoImplicit false

namespace QueryPlan.CommandLine

/-! ## What arguments say -/

/-- The arguments of the command `plan`. -/
structure PlanOptions where
  operationName : Option String
  operationFile : String
  /-- Files, or directories that hold files. -/
  schemaPaths : List String
  /-- Which files of a directory are taken. -/
  schemaExtensions : List String
deriving DecidableEq, Repr

inductive Command
  | plan (options : PlanOptions)
deriving DecidableEq, Repr

/-- What the program was asked to do. -/
structure Invocation where
  command : Option Command
  verbose : Bool
deriving DecidableEq, Repr

/-- Why there is no invocation. The first two are requests and not mistakes. -/
inductive UsageStop
  | help
  | version
  | missingArgument
  /-- An option has no value, or a path is empty. -/
  | missingValue
  /-- A flag has a value. -/
  | unexpectedValue
  | unknownCommand
  | unknownArgument
  /-- What may be given once is given again. -/
  | repeatedArgument
deriving DecidableEq, Repr

/-- The status that the program ends with. -/
def UsageStop.exitCode : UsageStop → Nat
  | help | version => 0
  | _ => 2

/-! ## Forms of arguments -/

/-- An argument by its form. -/
inductive Word
  /-- Two dashes: only operands follow. -/
  | separator
  /-- A name after two dashes, with what follows an equals sign. -/
  | long (name : String) (value : Option String)
  /-- Letters after one dash. -/
  | short (letters : List Char)
  | plain (text : String)
deriving DecidableEq, Repr

/-- The form of an argument. A single dash is plain. -/
def Word.ofString (s : String) : Word :=
  match s.toList with
  | ['-', '-'] => .separator
  | '-' :: '-' :: cs =>
    match cs.dropWhile (· ≠ '=') with
    | [] => .long (String.ofList cs) none
    | _ :: value => .long (String.ofList (cs.takeWhile (· ≠ '='))) (some (String.ofList value))
  | '-' :: c :: cs => .short (c :: cs)
  | _ => .plain s

inductive Flag
  | verbose | help | version
deriving DecidableEq, Repr

namespace Flag

def ofName? (name : String) : Option Flag :=
  if name = "verbose" then some verbose
  else if name = "help" then some help
  else if name = "version" then some version
  else none

def ofLetter? (letter : Char) : Option Flag :=
  if letter = 'v' then some verbose
  else if letter = 'h' then some help
  else if letter = 'V' then some version
  else none

/-- Raises a flag: answers whether the program is verbose then. -/
def raise (verbose : Bool) : Flag → Except UsageStop Bool
  | .verbose => if verbose then .error .repeatedArgument else .ok true
  | .help => .error .help
  | .version => .error .version

end Flag

/-! ## The arguments of a plan -/

/-- What a value of the command `plan` is for. -/
inductive Slot
  | operationName | operationFile | schemaPath | schemaExtensions
deriving DecidableEq, Repr

/-- The option of that name. -/
def Slot.ofOption? (name : String) : Option Slot :=
  if name = "operation-name" then some operationName
  else if name = "schema" then some schemaPath
  else if name = "schema-file-exts" then some schemaExtensions
  else none

/-- What has been read of the arguments of the command `plan`. -/
structure PlanReading where
  operationName : Option String
  operationFile : Option String
  schemaPaths : List String
  /-- Without any, the usual ones are taken. -/
  schemaExtensions : Option (List String)
  verbose : Bool
  /-- The value that is checked next, if it is there. -/
  pending : Option (Slot × Option String)
  /-- Whether only operands follow. -/
  onlyOperands : Bool
deriving DecidableEq, Repr

namespace PlanReading

def start : PlanReading := ⟨none, none, [], none, false, none, false⟩

/-- Checks a value and stores it. Options that take lists may be given again. -/
def store (r : PlanReading) : Slot → Option String → Except UsageStop PlanReading
  | _, none => .error .missingValue
  | .operationName, some v =>
    if r.operationName.isSome then .error .repeatedArgument
    else .ok { r with operationName := some v }
  | .operationFile, some v =>
    if v.isEmpty then .error .missingValue else .ok { r with operationFile := some v }
  | .schemaPath, some v =>
    if v.isEmpty then .error .missingValue
    else .ok { r with schemaPaths := r.schemaPaths ++ [v] }
  | .schemaExtensions, some v =>
    .ok { r with schemaExtensions := some (r.schemaExtensions.getD [] ++ v.splitOn ",") }

/-- Stores the pending value. -/
def settle (r : PlanReading) : Except UsageStop PlanReading :=
  match r.pending with
  | none => .ok r
  | some (slot, value) => store { r with pending := none } slot value

/-- Whether the one operand has been read, if not stored. -/
def hasOperand (r : PlanReading) : Bool :=
  r.operationFile.isSome || r.pending.any fun p => p.1 = .operationFile

/-- Reads an operand. -/
def operand (r : PlanReading) (text : String) : Except UsageStop PlanReading :=
  if r.hasOperand then .error .unknownArgument
  else do
    let r ← r.settle
    return { r with pending := some (.operationFile, some text) }

/-- Reads a flag. The version is the program's, and no command has one. -/
def flag (r : PlanReading) : Option Flag → Except UsageStop PlanReading
  | none | some .version => .error .unknownArgument
  | some f => do
    let r ← r.settle
    return { r with verbose := ← f.raise r.verbose }

/-- Reads an option, which may have its value with it. -/
def option (r : PlanReading) (slot : Slot) (value : Option String) :
    Except UsageStop PlanReading := do
  let r ← r.settle
  match value with
  | none => return { r with pending := some (slot, none) }
  | some _ => r.store slot value

/-- Reads a name after two dashes. -/
def long (r : PlanReading) (name : String) (value : Option String) :
    Except UsageStop PlanReading :=
  match Slot.ofOption? name, Flag.ofName? name, value with
  | some slot, _, _ => r.option slot value
  | none, some .verbose, some _ | none, some .help, some _ => .error .unexpectedValue
  | none, f, _ => r.flag f

/-- Reads one argument. -/
def read (r : PlanReading) (argument : String) : Except UsageStop PlanReading :=
  if r.onlyOperands then r.operand argument
  else
    match Word.ofString argument with
    | .separator => .ok { r with onlyOperands := true }
    | .long name value => r.long name value
    | .short letters => letters.foldlM (fun r c => r.flag (Flag.ofLetter? c)) r
    | .plain text =>
      match r.pending with
      | some (slot, none) => .ok { r with pending := some (slot, some text) }
      | _ => r.operand text

/-- The extensions that are taken without others. -/
def usualExtensions : List String := ["graphql", "graphqls"]

/-- What all arguments together say. -/
def finish (r : PlanReading) : Except UsageStop (PlanOptions × Bool) := do
  let r ← r.settle
  match r.operationFile, r.schemaPaths with
  | some file, _ :: _ =>
    return (⟨r.operationName, file, r.schemaPaths,
      r.schemaExtensions.getD usualExtensions⟩, r.verbose)
  | _, _ => .error .missingArgument

end PlanReading

/-- Reads the arguments of the command `plan`. -/
def PlanOptions.ofArguments (arguments : List String) :
    Except UsageStop (PlanOptions × Bool) := do
  (← arguments.foldlM PlanReading.read .start).finish

/-! ## All arguments -/

/-- Help can be asked for the program, for the command `plan` and for help itself. -/
def helpOn : List String → UsageStop
  | [] | ["plan"] | ["help"] => .help
  | _ => .unknownCommand

/-- Reads the arguments before a command, and then those of the command. -/
def Invocation.read (verbose : Bool) : List String → Except UsageStop Invocation
  | [] => .ok ⟨none, verbose⟩
  | argument :: rest =>
    if argument = "plan" then do
      let (options, v) ← PlanOptions.ofArguments rest
      return ⟨some (.plan options), verbose || v⟩
    else if argument = "help" then .error (helpOn rest)
    else
      match Word.ofString argument with
      | .separator =>
        match rest with
        | [] => .ok ⟨none, verbose⟩
        | operand :: _ =>
          .error (if operand = "plan" || operand = "help" then .unknownArgument
            else .unknownCommand)
      | .long name value =>
        match Flag.ofName? name, value with
        | none, _ => .error .unknownArgument
        | some _, some _ => .error .unexpectedValue
        | some f, none => do read (← f.raise verbose) rest
      | .short letters => do
        let v ← letters.foldlM
          (fun v c =>
            match Flag.ofLetter? c with
            | none => .error .unknownArgument
            | some f => f.raise v)
          verbose
        read v rest
      | .plain _ => .error .unknownCommand

/-- What the arguments of the program ask for. -/
def Invocation.ofArguments (arguments : List String) : Except UsageStop Invocation :=
  Invocation.read false arguments

end QueryPlan.CommandLine
