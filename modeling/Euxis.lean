import Euxis.Bytes
import Euxis.Clock
import Euxis.Policy.Code
import Euxis.Policy.Proofs
import Euxis.Json.Value
import Euxis.Outcome
import Euxis.Json.Access
import Euxis.Json.Text
import Euxis.Json.RoundTrip
import Euxis.Chain
import Euxis.Audit.Code
import Euxis.Audit.Proofs
import Euxis.Acp.Code
import Euxis.Acp.Proofs
import Euxis.Search
import Euxis.Parse
import Euxis.Cpg.Graph
import Euxis.Security.Finding
import Euxis.Taint.Code
import Euxis.Taint.Proofs
import Euxis.Router.Code
import Euxis.Router.Proofs
import Euxis.Auth.Code
import Euxis.Auth.Proofs
import Euxis.Cpg.Builder
import Euxis.Cpg.Ddg
import Euxis.Reach.Code
import Euxis.Reach.Proofs
import Euxis.Scan.Engine
import Euxis.Scan.RuleLoader
import Euxis.Scan.LoaderProofs
import Euxis.Taint.BuiltinSpecs
import Euxis.Sarif
import Euxis.Scan.Code
import Euxis.Scan.Cache
import Euxis.Scan.Damaged
import Euxis.Scan.Ruleset
import Euxis.Playbook.Evidence
import Euxis.Playbook.FinalLine
import Euxis.Trace
import Euxis.Playbook.Run
import Euxis.Playbook.Verdict
import Euxis.Playbook.Proofs
import Euxis.Sbom.Purl
import Euxis.Sbom.PurlRoundTrip
import Euxis.Sbom.Types
import Euxis.Sca.Code
import Euxis.Sca.Proofs
import Euxis.Cpg.DefUse
import Euxis.Cpg.Copies
import Euxis.Taint.Copies
import Euxis.Attest.Code
import Euxis.Sextets
import Euxis.Attest.Base64
import Euxis.Attest.Proofs
import Euxis.Sbom.Spdx
import Euxis.Sbom.SpdxProofs
import Euxis.Gateway.Code
import Euxis.Lines
import Euxis.Gateway.Proofs
import Euxis.Memory.Code
import Euxis.Memory.Proofs
import Euxis.Identity.Code
import Euxis.Identity.Proofs
import Euxis.Files
import Euxis.Lifecycle.Code
import Euxis.Lifecycle.Proofs
import Euxis.Json.Msgpack
import Euxis.Session.Code
import Euxis.Session.Proofs
import Euxis.Config.Yaml
import Euxis.Config.Code
import Euxis.Config.Fields
import Euxis.Config.Proofs
import Euxis.Playbook.Consistency
import Euxis.Playbook.Agreement
import Euxis.Playbook.Confidence
import Euxis.Playbook.Schedule
import Euxis.Playbook.Escalation
import Euxis.Router.Reload
import Euxis.Workers
import Euxis.Scan.Walk
import Euxis.Slopsquatting.Code
import Euxis.Slopsquatting.Proofs
import Euxis.JsonCache.Code
import Euxis.JsonCache.Proofs
import Euxis.Wire
import Euxis.A2a.AgentCard
import Euxis.Attest.Bundle
import Euxis.Attest.Untrusted
import Euxis.Breadth
import Euxis.Gateway.WebSocket
import Euxis.Reach.Annotate
import Euxis.Reach.Calls
import Euxis.Reach.Distance
import Euxis.Merge
import Euxis.Sca.GoSum
import Euxis.Vulndb.Osv
import Euxis.Metrics.Code
import Euxis.Metrics.Ledger
import Euxis.Metrics.Proofs
import Euxis.Mcp.Host
import Euxis.Mcp.Proofs
import Euxis.Sca.CargoLayout
import Euxis.Sca.CargoProofs
import Euxis.Sca.NpmLock
import Euxis.Sbom.Canonical
import Euxis.Vulndb.Response
import Euxis.Records
import Euxis.Inference.Sse
import Euxis.Cli.Stream
import Euxis.Inference.Dispatch
import Euxis.Inference.Interleaved
import Euxis.Inference.ToolCalls
import Euxis.Nesting
import Euxis.Cpg.Parents
import Euxis.Descent
import Euxis.Cpg.Cfg
import Euxis.Cpg.CfgVisits
import Euxis.Cpg.CfgOnce
import Euxis.Cpg.CfgInPlace
import Euxis.Bindings
import Euxis.Cpg.Events
import Euxis.Cpg.DdgEdges
import Euxis.Cpg.DdgNested
import Euxis.Cpg.DdgStraight
import Euxis.Taint.Monotone
import Euxis.Taint.Fingerprint
import Euxis.Levels
import Euxis.Reach.Names
import Euxis.Certification.Code
import Euxis.Certification.Proofs
import Euxis.Turns
import Euxis.Credentials.Code
import Euxis.Credentials.Rotation
import Euxis.Credentials.Backoff
import Euxis.Router.Sessions
import Euxis.Router.Lru
import Euxis.Network.Resilience
import Euxis.Postings
import Euxis.Overlay
import Euxis.Auth.Cooldown
import Euxis.Auth.Resolution
import Euxis.Interrupted
import Euxis.Auth.Reload
import Euxis.Auth.Profiles
import Euxis.Audit.Total
import Euxis.Network.Topology
import Euxis.Runtime.ToolManifest
import Euxis.Runtime.Interaction
import Euxis.Bridge.Frontmatter
import Euxis.Delimited
import Euxis.Bridge.Importer
import Euxis.Inference.Total
import Euxis.Inference.CacheControl
import Euxis.Ensemble.Runner
import Euxis.Json.Compact
import Euxis.Json.Indented
import Euxis.Ensemble.Response
import Euxis.Loop
import Euxis.Cli.McpProvider
import Euxis.Cli.McpAnswer
import Euxis.Cli.Registry
import Euxis.Cli.DiffView
import Euxis.PriorityQueue
import Euxis.Cli.EventLoop
import Euxis.Cli.FuzzyMatch
import Euxis.Cli.Palette
import Euxis.Cache.Key
import Euxis.Replace
import Euxis.Cli.Syntax
import Euxis.Cli.TextUtils
import Euxis.Gateway.FleetTools
import Euxis.Atomic
import Euxis.Runtime.Budget
import Euxis.Runtime.AgentLoop
import Euxis.Runtime.Conversation
import Euxis.A2a.Message
import Euxis.A2a.Tasks
import Euxis.Cli.Layout
import Euxis.Ring
import Euxis.Cli.Focus
import Euxis.Cache.Store
import Euxis.Terminal
import Euxis.Cli.Screen
import Euxis.Cli.StyledText
import Euxis.Prefixes
import Euxis.Etx.GhostText
import Euxis.Metrics.FastCollector
import Euxis.Platform.Execution
