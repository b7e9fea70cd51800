import AccelProf.Program.RelyGuarantee
import AccelProf.Program.Journal
import AccelProf.Data.Pages
import AccelProf.Data.SortedMap
import AccelProf.Data.Delimited
import AccelProf.Data.Fallible
import AccelProf.Data.Replace
import AccelProf.Data.FileTree
import AccelProf.Data.FileWrites
import AccelProf.Model.Ids
import AccelProf.Model.S3Uri
import AccelProf.Model.Services
import AccelProf.Model.S3Layout
import AccelProf.Model.Store
import AccelProf.Model.Search
import AccelProf.Model.FileSystem
import AccelProf.Model.Download
import AccelProf.Model.Glob
import AccelProf.Model.Analyzers
import AccelProf.Model.Janitor
import AccelProf.Model.RunPrefix
import AccelProf.Spec.Deletion
import AccelProf.Spec.Reference
import AccelProf.Janitor.Verdict
import AccelProf.Janitor.Survey
import AccelProf.Janitor.Purge
import AccelProf.Janitor.Authority
import AccelProf.Janitor.Breaker
import AccelProf.Janitor.Safety
import AccelProf.Janitor.Collection
import AccelProf.Janitor.Exactness
import AccelProf.Store.Effects
import AccelProf.Store.Record
import AccelProf.Store.Creation
import AccelProf.Store.Log
import AccelProf.Store.Atomicity
import AccelProf.Store.Completeness
import AccelProf.Store.Upload
import AccelProf.Store.Search
import AccelProf.Store.Paging
import AccelProf.Store.Refusal
import AccelProf.Store.Growth
import AccelProf.Store.Lookup
import AccelProf.Store.RoundTrip
import AccelProf.Store.Integrity
import AccelProf.Platform.Sweeping
import AccelProf.Platform.Ownership
import AccelProf.Platform.Turns
import AccelProf.Platform.Producers
import AccelProf.Platform.Interleaving
import AccelProf.Platform.Hold
import AccelProf.Platform.Isolation
import AccelProf.Platform.Experiments
import AccelProf.Platform.Retirement
import AccelProf.Platform.Publication
import AccelProf.Platform.Delivery
import AccelProf.Platform.Staging
import AccelProf.Platform.Convergence
import AccelProf.Layout.Uri
import AccelProf.Layout.Erasure
import AccelProf.Layout.Paths
import AccelProf.Layout.Artifacts
import AccelProf.Layout.Addresses
import AccelProf.Layout.Mount
import AccelProf.Layout.Copy
import AccelProf.Layout.Planning
import AccelProf.Layout.Containment
import AccelProf.Analysis.Matches
import AccelProf.Analysis.Templates
import AccelProf.Analysis.Escape
import AccelProf.Analysis.Readers
import AccelProf.Analysis.Config
import AccelProf.Analysis.Selection
import AccelProf.Analysis.Advice
import AccelProf.Analysis.Findings
import AccelProf.Analysis.Readiness
import AccelProf.Analysis.Teardown
import AccelProf.Analysis.Sequential
import AccelProf.Benchmark.Metrics
import AccelProf.Benchmark.Recorded
