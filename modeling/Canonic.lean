import Canonic.Except
import Canonic.Closure
import Canonic.Dict
import Canonic.Json
import Canonic.Slug
import Canonic.Graph.Words
import Canonic.Graph.Bfs
import Canonic.Sql.Expr
import Canonic.Sql.Query
import Canonic.Sql.Traverse
import Canonic.Sql.Eval
import Canonic.Sql.Analytic
import Canonic.Sql.Reference
import Canonic.Sql.Scalar
import Canonic.Exc
import Canonic.Text
import Canonic.Semantic.Duration
import Canonic.Semantic.Calendar
import Canonic.Semantic.Zone
import Canonic.Lib
import Canonic.Semantic.Models
import Canonic.Contracts.Models
import Canonic.Contracts.Principal
import Canonic.Contracts.Resolver
import Canonic.Contracts.Roles
import Canonic.Contracts.Validate
import Canonic.Contracts.Resolves
import Canonic.Compiler.Joins
import Canonic.Compiler.AliasTree
import Canonic.Compiler.JoinTree
import Canonic.Compiler.JoinCandidates
import Canonic.Compiler.Dialect
import Canonic.Compiler.Query
import Canonic.PyText
import Canonic.Semantic.DurationLaws
import Canonic.Compiler.Parse
import Canonic.Compiler.Names
import Canonic.Compiler.Conditions
import Canonic.Compiler.Builders
import Canonic.Compiler.Leaf
import Canonic.Compiler.Compose
import Canonic.Compiler.Strategies.Single
import Canonic.Compiler.Strategies.Cumulative
import Canonic.Compiler.Strategies.Combined
import Canonic.Compiler.Pipeline
import Canonic.Compiler.Calls
import Canonic.Compiler.Access
import Canonic.Compiler.Emitted
import Canonic.Compiler.Tenancy
import Canonic.Compiler.Guardrails
import Canonic.Compiler.Fusion
import Canonic.Compiler.Composition
import Canonic.Compiler.Reaggregation
import Canonic.Compiler.Finality
import Canonic.Compiler.Masking
import Canonic.Compiler.Keys
import Canonic.Compiler.Schema
import Canonic.Compiler.TenantValues
import Canonic.Compiler.Binding
import Canonic.Compiler.RequiredDimension
import Canonic.Compiler.Window
import Canonic.Compiler.Watermark
import Canonic.Compiler.Percentile
import Canonic.Compiler.Dedup
import Canonic.Compiler.Attribution
import Canonic.Compiler.FilterFlag
import Canonic.Compiler.FilterKeys
import Canonic.Semantic.Periods
import Canonic.Semantic.IsoWeek
import Canonic.Trust.Periods
import Canonic.Semantic.TimeFormat
import Canonic.Semantic.LabelRoundTrip
import Canonic.Semantic.Reading
import Canonic.Core.DecomposePeriods
import Canonic.Compiler.SqliteCalendar
import Canonic.Compiler.TimeRange
import Canonic.Compiler.Outputs
import Canonic.Compiler.Division
import Canonic.Compiler.ZeroDenominators
import Canonic.Compiler.Prefilters
import Canonic.Compiler.Ranges
import Canonic.Core.Connections
import Canonic.Core.DecomposeMethods
import Canonic.Core.Decomposition
import Canonic.Core.Discovery
import Canonic.Core.NameWalks
import Canonic.Core.Offered
import Canonic.Core.Project
import Canonic.Core.Reload
import Canonic.Feedback.History
import Canonic.Instrumentation.Events
import Canonic.Instrumentation.Lossless
import Canonic.Knowledge.Retrieval
import Canonic.Knowledge.Isolation
import Canonic.Knowledge.Traversal
import Canonic.Knowledge.VectorCache
import Canonic.Ingestion.Models
import Canonic.Ingestion.Candidates
import Canonic.Ingestion.Builder
import Canonic.Ingestion.Definitions
import Canonic.Ingestion.Placement
import Canonic.Ingestion.AllOrNothing
import Canonic.Ingestion.PlacedFragments
import Canonic.Ingestion.DraftValidation
import Canonic.Ingestion.Probe
import Canonic.Ingestion.Reconciliation
import Canonic.Ingestion.Decisions
import Canonic.Ingestion.Authority
import Canonic.Ingestion.Contested
import Canonic.Ingestion.Contradictions
import Canonic.Ingestion.Alternatives
import Canonic.Ingestion.LeastFixpoint
import Canonic.Ingestion.Examples
import Canonic.Ingestion.Pipeline
import Canonic.Ingestion.PageRefs
import Canonic.Knowledge.PageText
import Canonic.Ingestion.PageUpkeep
import Canonic.Ingestion.Sentinels
import Canonic.Ingestion.OneChange
import Canonic.Feedback.AssertionHistory
import Canonic.Trust.Scorer
import Canonic.Trust.Served
import Canonic.Trust.Components
import Canonic.Ingestion.Pending
import Canonic.Ingestion.Review
import Canonic.Ingestion.RunStore
import Canonic.Ingestion.Acquisition
import Canonic.Compiler.Scanned
