import ResourceCatalog.Catalog.Database
import ResourceCatalog.Catalog.Decoding
import ResourceCatalog.Catalog.Encoding
import ResourceCatalog.Catalog.Entities
import ResourceCatalog.Catalog.PropertyType
import ResourceCatalog.Catalog.Snapshot
import ResourceCatalog.Command.Arguments
import ResourceCatalog.Command.Build
import ResourceCatalog.Command.Outcome
import ResourceCatalog.Command.Run
import ResourceCatalog.Command.Snapshots
import ResourceCatalog.Comparison.Basic
import ResourceCatalog.Comparison.Rendering
import ResourceCatalog.Digest.Sha256
import ResourceCatalog.Files.Directories
import ResourceCatalog.Files.Host
import ResourceCatalog.Files.Path
import ResourceCatalog.Files.Workspace
import ResourceCatalog.Graph.Collection
import ResourceCatalog.Graph.Edges
import ResourceCatalog.Graph.Error
import ResourceCatalog.Graph.Identity
import ResourceCatalog.Graph.KeyIndex
import ResourceCatalog.Import.Builder
import ResourceCatalog.Import.LateBinding
import ResourceCatalog.Import.LegacySpec
import ResourceCatalog.Import.Pruning
import ResourceCatalog.Import.Registry
import ResourceCatalog.Import.Typing
import ResourceCatalog.Json.Basic
import ResourceCatalog.Json.Number
import ResourceCatalog.Json.Printer
import ResourceCatalog.Json.Reader
import ResourceCatalog.Keyed
import ResourceCatalog.Main
import ResourceCatalog.Number.Double
import ResourceCatalog.Number.Literal
import ResourceCatalog.Number.Shortest
import ResourceCatalog.Patch.Apply
import ResourceCatalog.Patch.Basic
import ResourceCatalog.Patch.Cursor
import ResourceCatalog.Patch.Recipe
import ResourceCatalog.Patch.Role
import ResourceCatalog.Patch.Rule
import ResourceCatalog.Patch.RuleBook
import ResourceCatalog.Patch.Settle
import ResourceCatalog.Patch.Standard
import ResourceCatalog.Pointer.Basic
import ResourceCatalog.Report.Basic
import ResourceCatalog.Report.EditScript
import ResourceCatalog.Report.Unified
import ResourceCatalog.Schema.Fingerprint
import ResourceCatalog.Schema.Resolution
import ResourceCatalog.Schema.Shape
import ResourceCatalog.Schema.Unification
import ResourceCatalog.Settings.Basic
import ResourceCatalog.Settings.Environment
import ResourceCatalog.Settings.Files
import ResourceCatalog.Settings.Layers
import ResourceCatalog.Settings.Reading
import ResourceCatalog.Settings.Setting
import ResourceCatalog.Settings.Toml
import ResourceCatalog.Text.Casing
import ResourceCatalog.Text.CharacterRanges
import ResourceCatalog.Text.Lowercase
import ResourceCatalog.Text.Quoted
import ResourceCatalog.Text.Split
import ResourceCatalog.Text.Timestamp
import ResourceCatalog.Text.Unprintable
import ResourceCatalog.Text.Version
import ResourceCatalog.Proofs.Catalog.Consistency
import ResourceCatalog.Proofs.Catalog.Identities
import ResourceCatalog.Proofs.Catalog.Encoding
import ResourceCatalog.Proofs.Catalog.Loading
import ResourceCatalog.Proofs.Catalog.Renaming
import ResourceCatalog.Proofs.Catalog.RoundTrip
import ResourceCatalog.Proofs.Computation
import ResourceCatalog.Proofs.Graph.Collection
import ResourceCatalog.Proofs.Graph.EdgeHistory
import ResourceCatalog.Proofs.Graph.History
import ResourceCatalog.Proofs.Graph.IndexHistory
import ResourceCatalog.Proofs.Graph.Lookup
import ResourceCatalog.Proofs.Graph.Rebuilding
import ResourceCatalog.Proofs.Import.Failures
import ResourceCatalog.Proofs.Import.Parallel
import ResourceCatalog.Proofs.Import.Reimport
import ResourceCatalog.Proofs.Import.Repetition
import ResourceCatalog.Proofs.Import.Sketch
import ResourceCatalog.Proofs.Json.Equality
import ResourceCatalog.Proofs.Json.WellFormed
import ResourceCatalog.Proofs.Patch.Displacement
import ResourceCatalog.Proofs.Patch.Passes
import ResourceCatalog.Proofs.Patch.RemovalOrder
import ResourceCatalog.Proofs.Patch.Settling
import ResourceCatalog.Proofs.Patch.Walk
import ResourceCatalog.Proofs.Patch.NormalForm
import ResourceCatalog.Proofs.Patch.Exchange
import ResourceCatalog.Proofs.Report.Audiences
import ResourceCatalog.Proofs.Schema.Acceptance
import ResourceCatalog.Proofs.Schema.Keywords
import ResourceCatalog.Proofs.Schema.Rules
import ResourceCatalog.Proofs.Schema.Symmetry
import ResourceCatalog.Proofs.Schema.Unification
import ResourceCatalog.Proofs.Comparison.Mirror
import ResourceCatalog.Proofs.Comparison.Counterparts
import ResourceCatalog.Proofs.Comparison.Relabelling
import ResourceCatalog.Proofs.Number.Reading
import ResourceCatalog.Proofs.Number.Shortest
import ResourceCatalog.Proofs.Json.Printing
import ResourceCatalog.Proofs.Comparison.Faithful
import ResourceCatalog.Proofs.Import.Naming
import ResourceCatalog.Proofs.Import.Opening
import ResourceCatalog.Proofs.Import.Imported
import ResourceCatalog.Proofs.Import.Neighbours
import ResourceCatalog.Proofs.Import.Independence
import ResourceCatalog.Proofs.Import.Commutation
import ResourceCatalog.Proofs.Catalog.Texts
import ResourceCatalog.Proofs.Schema.Unfolding
import ResourceCatalog.Proofs.Import.Leftovers
import ResourceCatalog.Proofs.Import.Calls
import ResourceCatalog.Proofs.Import.Accounts
import ResourceCatalog.Proofs.Import.Deduplication
import ResourceCatalog.Proofs.Patch.Compatibility
import ResourceCatalog.Proofs.Patch.Together
import ResourceCatalog.Proofs.Patch.Meaning
import ResourceCatalog.Proofs.Patch.Refinement
import ResourceCatalog.Proofs.Patch.Outcome
import ResourceCatalog.Proofs.Patch.Visits
import ResourceCatalog.Proofs.Patch.Cursors
import ResourceCatalog.Proofs.Patch.Corrections
import ResourceCatalog.Proofs.Schema.Descent
import ResourceCatalog.Proofs.Schema.Faults
import ResourceCatalog.Proofs.Schema.Throughout
import ResourceCatalog.Proofs.Schema.UnifiedKinds
import ResourceCatalog.Proofs.Schema.Emptiness
import ResourceCatalog.Proofs.Import.Emptiness
import ResourceCatalog.Proofs.Number.Rounding
import ResourceCatalog.Proofs.Schema.Bounds
import ResourceCatalog.Proofs.Schema.Documentation
import ResourceCatalog.Proofs.Catalog.Names
import ResourceCatalog.Proofs.Catalog.Unions
import ResourceCatalog.Proofs.Import.Unions
import ResourceCatalog.Proofs.Import.History
import ResourceCatalog.Proofs.Import.Levels
import ResourceCatalog.Proofs.Import.Attributes
import ResourceCatalog.Proofs.Import.Listing
import ResourceCatalog.Proofs.Schema.Traces
import ResourceCatalog.Proofs.Schema.Sizes
import ResourceCatalog.Proofs.Import.Territory
import ResourceCatalog.Proofs.Import.Termination
