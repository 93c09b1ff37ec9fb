import Syslogc.Lib.Transition
import Syslogc.Lib.Sums
import Syslogc.Lib.Lists
import Syslogc.Lib.Bufio
import Syslogc.Lib.Json
import Syslogc.Storage.Types
import Syslogc.Config.Source
import Syslogc.Config.Validate
import Syslogc.Supervisor.Supervisor
import Syslogc.Supervisor.Listeners
import Syslogc.Supervisor.Reconcile
import Syslogc.Framing.Decoder
import Syslogc.Framing.Frames
import Syslogc.Pipeline.Writer
import Syslogc.Pipeline.System
import Syslogc.Pipeline.Conservation
import Syslogc.Pipeline.Shutdown
import Syslogc.Listener.Receive
import Syslogc.Api.Ingest
import Syslogc.Api.Sources
import Syslogc.Listener.Admission
import Syslogc.Listener.Connections
import Syslogc.Forwarding.Forwarder
import Syslogc.Forwarding.System
import Syslogc.Forwarding.Invariant
import Syslogc.Forwarding.Accounting
import Syslogc.Forwarding.Metering
import Syslogc.Forwarding.Bounds
import Syslogc.Forwarding.Slots
import Syslogc.Forwarding.Registry
import Syslogc.Lib.Bytes
import Syslogc.LogsQL.Grammar
import Syslogc.LogsQL.Lexer
import Syslogc.LogsQL.Terms
import Syslogc.Storage.Compile
import Syslogc.Storage.Filter
import Syslogc.Storage.Meaning
import Syslogc.Storage.Native
import Syslogc.Storage.Splitting
import Syslogc.Lib.Fallible
import Syslogc.Lib.Interleaving
import Syslogc.Auth.Store
import Syslogc.Auth.Service
import Syslogc.Api.Users
import Syslogc.Framing.Stream
import Syslogc.Pipeline.Budget
import Syslogc.Pipeline.Pending
import Syslogc.Config.Print
import Syslogc.Api.ManageSources
import Syslogc.Api.Secrets
import Syslogc.Config.Load
import Syslogc.App.Desired
import Syslogc.Lib.Fuel
import Syslogc.Frontend.FilterText
import Syslogc.Frontend.Parsing
import Syslogc.Frontend.Lexing
import Syslogc.Frontend.RoundTrip
import Syslogc.Frontend.Text
import Syslogc.Frontend.NativePipes
import Syslogc.Lib.Instants
import Syslogc.Storage.Backend
import Syslogc.Trends.Recorder
import Syslogc.Trends.Coverage
import Syslogc.Lib.Charts
import Syslogc.Storage.Queries
import Syslogc.Query.TimeRange
import Syslogc.Query.Service
import Syslogc.Query.Analytics
import Syslogc.Query.Activity
import Syslogc.Query.ChartSums
import Syslogc.Supervisor.Passes
import Syslogc.Supervisor.Retries
import Syslogc.Supervisor.Convergence
import Syslogc.Lib.Utf8
import Syslogc.Lib.JsonValue
import Syslogc.Lib.Decimal
import Syslogc.Lib.Calendar
import Syslogc.Lib.Netip
import Syslogc.Logentry.Entry
import Syslogc.Storage.Encode
import Syslogc.Storage.Lines
import Syslogc.Normalization.Normalizer
import Syslogc.Normalization.Keys
import Syslogc.Parser.Rfc5424
import Syslogc.Parser.Rfc5424Messages
import Syslogc.Lib.JsonStream
import Syslogc.Api.IngestAccounting
import Syslogc.Query.Slots
import Syslogc.Query.Rows
import Syslogc.Api.Tail
import Syslogc.Framing.Octets
import Syslogc.Framing.Lines
import Syslogc.Framing.Retained
import Syslogc.Lib.JsonArray
import Syslogc.Parser.StructuredData
import Syslogc.Parser.RepeatedParams
import Syslogc.Trends.Horizon
import Syslogc.Api.ClientAddr
import Syslogc.Auth.LoginLimiter
import Syslogc.Normalization.Limits
import Syslogc.Lib.Checked
import Syslogc.Parser.Detect
import Syslogc.Parser.Rfc5424Positions
import Syslogc.Parser.Malformed
import Syslogc.Lib.Dates
import Syslogc.Lib.Zones
import Syslogc.Parser.Rfc3164
import Syslogc.Parser.BsdTimestamps
import Syslogc.Parser.Rfc3164Fields
import Syslogc.Api.ServiceTrends
import Syslogc.Trends.Rounds
import Syslogc.Trends.Chunks
import Syslogc.Trends.Status
import Syslogc.Extract.Templates
import Syslogc.Ingestion.Settings
import Syslogc.Frontend.LiveTail
import Syslogc.Api.LimitedReads
import Syslogc.Api.UserUpdates
import Syslogc.Acme.Certificates
