import HeliosLite.Compaction.Importance
import HeliosLite.Compaction.Prefilter
import HeliosLite.Compaction.Replacement
import HeliosLite.Compaction.SummaryTransformer
import HeliosLite.Daemon.Accounting
import HeliosLite.Daemon.Delivery
import HeliosLite.Domain.StreamedUsage
import HeliosLite.Domain.XmlCalls
import HeliosLite.EventSource.Chunking
import HeliosLite.Forge3d.Server
import HeliosLite.Graph.Dependents
import HeliosLite.Graph.Incremental
import HeliosLite.Guardian.Judge
import HeliosLite.Hooks.DoomLoop
import HeliosLite.JsonRepair.Concatenation
import HeliosLite.Lsp.Framing
import HeliosLite.Lsp.Routing
import HeliosLite.Lsp.Service
import HeliosLite.Markdown.TableRight
import HeliosLite.Markdown.WrapStyle
import HeliosLite.Mcp.Initialization
import HeliosLite.Orchestration.CrashGuard
import HeliosLite.Orchestration.Edits
import HeliosLite.Orchestration.ErrorTracker
import HeliosLite.Orchestration.Execution
import HeliosLite.Orchestration.Limits
import HeliosLite.Orchestration.Pairing
import HeliosLite.Paste.Collapse
import HeliosLite.Paste.Mention
import HeliosLite.Patch.FuzzyFallback
import HeliosLite.Providers.OpenaiStream
import HeliosLite.Providers.Thinking
import HeliosLite.Providers.ToolIds
import HeliosLite.Reduction.Prune
import HeliosLite.Resilience.Breaker
import HeliosLite.Resilience.Throttle
import HeliosLite.Responses.Replay
import HeliosLite.Responses.Streaming
import HeliosLite.Sandbox.MacOs
import HeliosLite.Schema.GeminiOutput
import HeliosLite.Schema.Stability
import HeliosLite.Schema.StrictOutput
import HeliosLite.Search.Dedup
import HeliosLite.Storage.Corruption
import HeliosLite.Storage.Indexing
import HeliosLite.Storage.Interleaving
import HeliosLite.Storage.Isolation
import HeliosLite.Storage.Merging
import HeliosLite.Storage.Migrating
import HeliosLite.Storage.Rewinding
import HeliosLite.Storage.RoundTrip
import HeliosLite.Telemetry.Auth
import HeliosLite.Telemetry.DiskStore
import HeliosLite.Telemetry.Hmac
import HeliosLite.Telemetry.Sink
import HeliosLite.Tools.ChangedFiles
import HeliosLite.Tools.FsSearch
import HeliosLite.Tools.Permissions
import HeliosLite.Tools.ReadCheck
import HeliosLite.Tools.ShellCommand
import HeliosLite.Transport.Inbound
import HeliosLite.Truncation.Shell
import HeliosLite.Workspace.Sync
