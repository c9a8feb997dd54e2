import Aldivine.Foundation.Execution
import Aldivine.Foundation.Holders
import Aldivine.Foundation.Wire
import Aldivine.Foundation.Table
import Aldivine.AdmissionQueue.Invariants
import Aldivine.AdmissionQueue.Order
import Aldivine.Admission.Walk
import Aldivine.Admission.Rejection
import Aldivine.Admission.Places
import Aldivine.Admission.Promotion
import Aldivine.Serialization.RoundTrip
import Aldivine.Network.Reliability
import Aldivine.Network.Sessions
import Aldivine.Storages.Model
import Aldivine.Storages.Weight
import Aldivine.Storages.Transfer
import Aldivine.Economy.Books
import Aldivine.Entities.Slots
import Aldivine.Entities.Dimensions
import Aldivine.StateBags.Replay
import Aldivine.StateBags.Versions
import Aldivine.Replication.Client
import Aldivine.Replication.Resend
import Aldivine.Persistence.Crashes
import Aldivine.Snapshots.Codec
import Aldivine.Snapshots.RoundTrip
import Aldivine.Protocol.Codec
import Aldivine.Downloads.Chunks
import Aldivine.Downloads.Coverage
import Aldivine.Downloads.Model
import Aldivine.Foundation.Turns
import Aldivine.Downloads.Fairness
import Aldivine.Migrations.Model
import Aldivine.Migrations.Plan
import Aldivine.Files.Model
import Aldivine.Files.Containment
import Aldivine.Files.Resolution
import Aldivine.Config.Parsing
import Aldivine.Config.Includes
import Aldivine.Config.Confinement
import Aldivine.Config.Flattening
import Aldivine.Config.Tokens
import Aldivine.Config.Rendering
import Aldivine.Config.RoundTrip
import Aldivine.Manifests.Lexing
import Aldivine.Manifests.Parsing
import Aldivine.Manifests.Strings
import Aldivine.Manifests.Fidelity
import Aldivine.Sharding.Model
import Aldivine.Sharding.Leases
import Aldivine.Sharding.Epochs
import Aldivine.Sharding.Handoffs
import Aldivine.Availability.Leaders
import Aldivine.Backups.Archives
import Aldivine.Replays.Debugger
import Aldivine.Replays.Seeking
import Aldivine.Residency.Handshakes
import Aldivine.Streaming.Caches
import Aldivine.Streaming.Mounts
import Aldivine.Streaming.Engine
import Aldivine.Streaming.Fates
import Aldivine.Streaming.JoinGate
import Aldivine.Negotiation.Model
import Aldivine.Negotiation.Protocols
import Aldivine.Negotiation.Features
import Aldivine.Negotiation.Order
import Aldivine.Edge.Networks
import Aldivine.Edge.Connections
import Aldivine.Entitlements.Service
import Aldivine.Foundation.SemVer
import Aldivine.Upgrades.Planner
import Aldivine.StateBags.Strict
import Aldivine.Updates.Catalog
import Aldivine.Joining.Agreement
import Aldivine.Admission.Binding
import Aldivine.Files.Directories
import Aldivine.Transfers.Resolving
import Aldivine.Transfers.Chunks
import Aldivine.Transfers.Fetching
import Aldivine.Packages.Model
import Aldivine.Packages.Verification
import Aldivine.Packages.Canonical
import Aldivine.Aegis.Sessions
import Aldivine.Aegis.Lifetimes
import Aldivine.Spatial.Grid
import Aldivine.Dotnet.Tables
import Aldivine.Dotnet.Standard
import Aldivine.Dotnet.Reader
import Aldivine.Dotnet.Image
import Aldivine.Dotnet.Bounds
import Aldivine.Dotnet.Rows
import Aldivine.Dotnet.Safety
import Aldivine.Foundation.BitStrings
import Aldivine.Foundation.Digests
import Aldivine.Edge.Hashing
import Aldivine.Edge.Forwarding
import Aldivine.CfxLua.Bridge
import Aldivine.CfxLua.RoundTrip
import Aldivine.CfxLua.Unpacking
import Aldivine.CfxLua.Packing
import Aldivine.Dotnet.Plans
import Aldivine.Dotnet.Loading
import Aldivine.Dotnet.Tokens
import Aldivine.NovaGate.Updates
import Aldivine.Aegis.Auth
import Aldivine.Aegis.Attempts
import Aldivine.Aegis.Actions
import Aldivine.Aegis.Instances
import Aldivine.Aegis.Lifecycles
import Aldivine.Extensions.Manifest
import Aldivine.Extensions.Transplants
import Aldivine.Foundation.Doubles
import Aldivine.Javascript.Registry
import Aldivine.Javascript.Identities
import Aldivine.Foundation.Graphs
import Aldivine.Node.Loading
import Aldivine.Node.Termination
import Aldivine.Node.Paths
import Aldivine.Node.Walking
import Aldivine.Persistence.Bounds
import Aldivine.Players.Roster
import Aldivine.Resources.Dependencies
import Aldivine.Config.Expansion
import Aldivine.Config.Convars
import Aldivine.Foundation.Decimals
import Aldivine.Foundation.Floats
import Aldivine.Manifests.Numbers
import Aldivine.Foundation.Grammars
import Aldivine.Foundation.MessagePack
import Aldivine.Clocks.Estimator
import Aldivine.Replays.Continuing
import Aldivine.LagCompensation.History
import Aldivine.Security.RateLimiter
import Aldivine.Streaming.Pipelines
import Aldivine.Backups.ContentHash
import Aldivine.Caches.Eviction
import Aldivine.Foundation.Masking
import Aldivine.Security.Redaction
import Aldivine.Foundation.Addresses
import Aldivine.Security.Hosts
import Aldivine.Serialization.Foreign
import Aldivine.CfxLua.Backticks
import Aldivine.Query.Status
import Aldivine.Aegis.Timelines
import Aldivine.Aegis.Totp
import Aldivine.Packages.Scanner
import Aldivine.Databases.Dialects
import Aldivine.Foundation.Calendar
import Aldivine.Core.Logging
import Aldivine.Foundation.Stable
import Aldivine.Foundation.Windows
import Aldivine.Events.Bus
import Aldivine.Events.GameRouter
import Aldivine.Availability.Breakers
import Aldivine.Aegis.Alerting
import Aldivine.Query.Probes
import Aldivine.Resources.Supervision
import Aldivine.Nui.Channels
import Aldivine.Admission.Ingress
import Aldivine.Scheduling.Lanes
import Aldivine.Node.Verification
import Aldivine.Persistence.Maps
import Aldivine.Rpc.Registry
import Aldivine.Negotiation.Builds
