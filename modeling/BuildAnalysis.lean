import BuildAnalysis.Engine.Script
import BuildAnalysis.Sample.Workspace
import BuildAnalysis.Environment.FieldPattern
import BuildAnalysis.Environment.LogDirective
import BuildAnalysis.Environment.LogFilter
import BuildAnalysis.Proofs.Engine.Incremental
import BuildAnalysis.Proofs.Analysis.Aggregation
import BuildAnalysis.Proofs.Analysis.Restart
import BuildAnalysis.Proofs.Analysis.Untroubled
import BuildAnalysis.Proofs.Analysis.Answer
import BuildAnalysis.Proofs.Analysis.Attachment
import BuildAnalysis.Proofs.Analysis.Route
import BuildAnalysis.Proofs.Collection.Sorted
import BuildAnalysis.Proofs.Engine.Termination
import BuildAnalysis.Proofs.Configuration.Identity
import BuildAnalysis.Proofs.Configuration.Interchange
import BuildAnalysis.Proofs.Attribute.Choice
import BuildAnalysis.Proofs.Analysis.Section
import BuildAnalysis.Proofs.Analysis.Toolchains
import BuildAnalysis.Proofs.Attribute.Winner
import BuildAnalysis.Proofs.Engine.Invalidation
import BuildAnalysis.Proofs.Collection.First
import BuildAnalysis.Proofs.Toolchain.Outcome
import BuildAnalysis.Proofs.Analysis.ToolchainLoading
import BuildAnalysis.Proofs.Analysis.AliasChain
import BuildAnalysis.Proofs.Analysis.BatchFailure
import BuildAnalysis.Proofs.Attribute.Unconfigured
import BuildAnalysis.Proofs.Analysis.FlagIndependence
import BuildAnalysis.Proofs.Analysis.OptOut
import BuildAnalysis.Proofs.Analysis.RecordedPackages
import BuildAnalysis.Proofs.Analysis.SelectKeys
import BuildAnalysis.Proofs.Label.Pattern
import BuildAnalysis.Proofs.Label.Containment
import BuildAnalysis.Proofs.Failure.Context
import BuildAnalysis.Proofs.Engine.Dependents
import BuildAnalysis.Proofs.Analysis.Coverage
