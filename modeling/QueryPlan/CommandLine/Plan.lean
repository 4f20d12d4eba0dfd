import QueryPlan.CommandLine.Arguments
import QueryPlan.CommandLine.SchemaFiles
import QueryPlan.Plan.Compile
import QueryPlan.Plan.Print
import QueryPlan.Schema.Build

/-!
# The command that plans an operation

The command finds the schema files, builds the schema, loads the document, indexes its
fragments and compiles one operation; the first of these to fail ends it.
-/

set_option autoImplicit false

namespace QueryPlan.CommandLine

/-- Which step failed, and why. -/
inductive PlanFailure
  | schemaFilesMissing (paths : List String)
  | schema (error : SchemaError)
  | document (file : String) (errors : List DocumentError)
  | fragments (errors : List FragmentError)
  | compile (error : CompileError)
deriving DecidableEq, Repr

/-- The text that reports a failure. -/
def PlanFailure.message : PlanFailure → String
  | schemaFilesMissing paths =>
    "❌ Errors locating schema files: " ++ ", ".intercalate (paths.map Text.quotedPath)
  | schema e => "❌ Error building schema: " ++ e.message
  | document file es =>
    "❌ Errors loading " ++ Text.quotedPath file ++ ": " ++
      "; ".intercalate (es.map DocumentError.message)
  | fragments es =>
    "❌ Invalid fragment definitions: " ++ "; ".intercalate (es.map FragmentError.message)
  | compile e => "❌ Error compiling operation: " ++ e.message

namespace PlanOptions

/-- The schema in the files that the options ask for. -/
def loadSchema (o : PlanOptions) (fs : FileSystem) : Except PlanFailure Schema :=
  match schemaFiles fs o.schemaPaths o.schemaExtensions with
  | .error missing => .error (.schemaFilesMissing missing)
  | .ok paths =>
    match (SchemaBuilder.empty.loadFiles fs paths).bind SchemaBuilder.build with
    | .error e => .error (.schema e)
    | .ok s => .ok s

/-- The plan that the options ask for, without optimizers. -/
def plan (o : PlanOptions) (fs : FileSystem) : Except PlanFailure Plan := do
  let schema ← o.loadSchema fs
  let document ← (Document.ofFile fs o.operationFile).mapError (.document o.operationFile)
  let fragments ← (FragmentIndex.build document).mapError .fragments
  let input : CompileInput Unit := ⟨schema, document, fragments, .empty⟩
  (input.compile o.operationName ()).1.mapError .compile

/-- A text without the blanks at its end. -/
def withoutTrailingBlanks (s : String) : String := String.ofList (Text.trimEnd s.toList)

/-- What the command prints: the plan, or the report of a failure. -/
def run (o : PlanOptions) (fs : FileSystem) : Except String String :=
  match o.plan fs with
  | .ok p => .ok (withoutTrailingBlanks p.print)
  | .error f => .error f.message

end PlanOptions

end QueryPlan.CommandLine
