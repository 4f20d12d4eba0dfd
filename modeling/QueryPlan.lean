import QueryPlan.CommandLine.Arguments
import QueryPlan.CommandLine.Plan
import QueryPlan.CommandLine.SchemaFiles
import QueryPlan.Decimal.Binary64
import QueryPlan.Decimal.Shortest
import QueryPlan.Document.Arena
import QueryPlan.Document.Build
import QueryPlan.Document.FragmentIndex
import QueryPlan.Document.Node
import QueryPlan.Files.FileTree
import QueryPlan.Main
import QueryPlan.OrderedMap
import QueryPlan.Plan.Basic
import QueryPlan.Plan.Collect
import QueryPlan.Plan.Compile
import QueryPlan.Plan.Condition
import QueryPlan.Plan.Error
import QueryPlan.Plan.Optimizer
import QueryPlan.Plan.Print
import QueryPlan.Plan.Rule
import QueryPlan.Plan.Selection
import QueryPlan.Proofs.Document.Acyclic
import QueryPlan.Proofs.Document.Arena
import QueryPlan.Proofs.Document.Closed
import QueryPlan.Proofs.Document.Conflicts
import QueryPlan.Proofs.Document.Cycles
import QueryPlan.Proofs.Document.Fragments
import QueryPlan.Proofs.Document.Inlined
import QueryPlan.Proofs.Document.Legible
import QueryPlan.Proofs.Document.Raised
import QueryPlan.Proofs.Document.References
import QueryPlan.Proofs.Document.Repeated
import QueryPlan.Proofs.Document.Reports
import QueryPlan.Proofs.Document.Stored
import QueryPlan.Proofs.Document.Walk
import QueryPlan.Proofs.Maps
import QueryPlan.Proofs.Padded
import QueryPlan.Proofs.Plan.Abreast
import QueryPlan.Proofs.Plan.Agreement
import QueryPlan.Proofs.Plan.Alike
import QueryPlan.Proofs.Plan.Calls
import QueryPlan.Proofs.Plan.Canonical
import QueryPlan.Proofs.Plan.Compiles
import QueryPlan.Proofs.Plan.Condition
import QueryPlan.Proofs.Plan.Corresponding
import QueryPlan.Proofs.Plan.Deferral
import QueryPlan.Proofs.Plan.Disjunction
import QueryPlan.Proofs.Plan.Enumeration
import QueryPlan.Proofs.Plan.Faultless
import QueryPlan.Proofs.Plan.Flatten
import QueryPlan.Proofs.Plan.Gathered
import QueryPlan.Proofs.Plan.Grouping
import QueryPlan.Proofs.Plan.History
import QueryPlan.Proofs.Plan.Inherited
import QueryPlan.Proofs.Plan.Inlining
import QueryPlan.Proofs.Plan.Internal
import QueryPlan.Proofs.Plan.Lawful
import QueryPlan.Proofs.Plan.Legible
import QueryPlan.Proofs.Plan.Levels
import QueryPlan.Proofs.Plan.LineCount
import QueryPlan.Proofs.Plan.Made
import QueryPlan.Proofs.Plan.Matching
import QueryPlan.Proofs.Plan.Mirrored
import QueryPlan.Proofs.Plan.Notation
import QueryPlan.Proofs.Plan.Numbering
import QueryPlan.Proofs.Plan.Observed
import QueryPlan.Proofs.Plan.Observing
import QueryPlan.Proofs.Plan.Ownership
import QueryPlan.Proofs.Plan.Parts
import QueryPlan.Proofs.Plan.Place
import QueryPlan.Proofs.Plan.Printed
import QueryPlan.Proofs.Plan.Reach
import QueryPlan.Proofs.Plan.Readable
import QueryPlan.Proofs.Plan.Reference
import QueryPlan.Proofs.Plan.Registrations
import QueryPlan.Proofs.Plan.Renaming
import QueryPlan.Proofs.Plan.Renumbering
import QueryPlan.Proofs.Plan.Repeating
import QueryPlan.Proofs.Plan.Resolved
import QueryPlan.Proofs.Plan.Scoped
import QueryPlan.Proofs.Plan.Synthetic
import QueryPlan.Proofs.Plan.Terminates
import QueryPlan.Proofs.Plan.Thinning
import QueryPlan.Proofs.Plan.Tree
import QueryPlan.Proofs.Plan.Unrevised
import QueryPlan.Proofs.Plan.Weight
import QueryPlan.Proofs.Plan.WellTyped
import QueryPlan.Proofs.Run
import QueryPlan.Proofs.Schema.Annotations
import QueryPlan.Proofs.Schema.Assembly
import QueryPlan.Proofs.Schema.Building
import QueryPlan.Proofs.Schema.Closed
import QueryPlan.Proofs.Schema.Declarations
import QueryPlan.Proofs.Schema.Described
import QueryPlan.Proofs.Schema.Implementations
import QueryPlan.Proofs.Schema.Inputs
import QueryPlan.Proofs.Schema.Named
import QueryPlan.Proofs.Schema.Outlines
import QueryPlan.Proofs.Schema.Placeless
import QueryPlan.Proofs.Schema.PossibleTypes
import QueryPlan.Proofs.Schema.Relocation
import QueryPlan.Proofs.Schema.Reordering
import QueryPlan.Proofs.Schema.Roots
import QueryPlan.Proofs.Schema.Sources
import QueryPlan.Proofs.Schema.Splitting
import QueryPlan.Proofs.Schema.Unnamed
import QueryPlan.Proofs.Syntax.Breaks
import QueryPlan.Proofs.Syntax.Quoted
import QueryPlan.Proofs.Syntax.Settled
import QueryPlan.Proofs.Syntax.Spelling
import QueryPlan.Proofs.Text.Breaks
import QueryPlan.Proofs.Text.Told
import QueryPlan.Proofs.Together
import QueryPlan.Schema.Basic
import QueryPlan.Schema.Build
import QueryPlan.Schema.Error
import QueryPlan.Schema.Type
import QueryPlan.Schema.TypeAnnotation
import QueryPlan.Syntax.Executable
import QueryPlan.Syntax.Grammar.Executable
import QueryPlan.Syntax.Grammar.Reader
import QueryPlan.Syntax.Grammar.TypeSystem
import QueryPlan.Syntax.Position
import QueryPlan.Syntax.StringLiteral
import QueryPlan.Syntax.Token
import QueryPlan.Syntax.TypeRef
import QueryPlan.Syntax.TypeSystem
import QueryPlan.Syntax.Value
import QueryPlan.Text.Lines
import QueryPlan.Text.Quoted
import QueryPlan.Text.Unicode
import QueryPlan.Text.Unshown
import QueryPlan.Text.Utf8
