import SovereignSeed.Mpmc.Delivery
import SovereignSeed.Mpmc.GiveUp
import SovereignSeed.Mpmc.Exclusivity
import SovereignSeed.Mpmc.Crew
import SovereignSeed.Foundation.Atomic
import SovereignSeed.Mpmc.Linearizable
import SovereignSeed.Foundation.Progress
import SovereignSeed.Mpmc.Progress
import SovereignSeed.Benchmark.Counting
import SovereignSeed.Python.Json
import SovereignSeed.Python.JsonLoaded
import SovereignSeed.Python.JsonPrefix
import SovereignSeed.Python.Utf8
import SovereignSeed.Python.JsonBytes
import SovereignSeed.Python.JsonOrder
import SovereignSeed.Tollbridge.Canonical
import SovereignSeed.Commons.Binding
import SovereignSeed.Commons.Executor
import SovereignSeed.Tollbridge.Persistence
import SovereignSeed.Tollbridge.Replay
import SovereignSeed.Tollbridge.Rejection
import SovereignSeed.Tollbridge.Admission
import SovereignSeed.Tollbridge.Freshness
import SovereignSeed.Tollbridge.Agreement
import SovereignSeed.Tollbridge.Outcomes
import SovereignSeed.Tollbridge.Staleness
import SovereignSeed.Tollbridge.Atomicity
import SovereignSeed.Tollbridge.Bounds
import SovereignSeed.Commons.EntryPoints
import SovereignSeed.Python.Value
import SovereignSeed.Tollbridge.Validator
import SovereignSeed.Audit.Conservation
import SovereignSeed.Mesh.SpscRefinement
import SovereignSeed.Xdp.Conservation
import SovereignSeed.Daemon.ExactlyOnce
import SovereignSeed.Daemon.Payload
import SovereignSeed.Foundation.Fifo
import SovereignSeed.Foundation.FileSystem
import SovereignSeed.Foundation.HashChain
import SovereignSeed.Lineage.Verifier
import SovereignSeed.Mesh.SpscRing
import SovereignSeed.Mesh.RingWrap
import SovereignSeed.Mesh.RingBounds
import SovereignSeed.Python.OsPath
import SovereignSeed.Resurrection.State
import SovereignSeed.Resurrection.Checkpoint
import SovereignSeed.Resurrection.Interruption
import SovereignSeed.Resurrection.Isolation
import SovereignSeed.Commons.Evidence
import SovereignSeed.Participant.Handlers
import SovereignSeed.Core.CryptoGuard
import SovereignSeed.Core.Worker
import SovereignSeed.Utils.Engine
import SovereignSeed.Utils.Progress
import SovereignSeed.Runner.Mutation
import SovereignSeed.Foundation.LinkedTree
import SovereignSeed.Python.Tarfile
import SovereignSeed.Migration.Packagers
import SovereignSeed.Migration.Restore
import SovereignSeed.Python.TarRoundTrip
import SovereignSeed.Migration.RoundTrip
import SovereignSeed.Logger.Queue
import SovereignSeed.Logger.Pipeline
import SovereignSeed.Logger.Shutdown
import SovereignSeed.Python.JsonRaw
import SovereignSeed.Logger.Line
import SovereignSeed.Python.JsonStrings
import SovereignSeed.Xdp.Evidence
import SovereignSeed.Xdp.Refill
import SovereignSeed.Runner.CleanGate
import SovereignSeed.Attestation.StateRoot
import SovereignSeed.Utils.AsyncLogger
import SovereignSeed.Utils.Drain
import SovereignSeed.CommonsBridge.Adapter
import SovereignSeed.CommonsBridge.Lifecycle
import SovereignSeed.CommonsBridge.Resilience
import SovereignSeed.Tollbridge.Provenance
import SovereignSeed.Commons.Cell
import SovereignSeed.Python.TornText
import SovereignSeed.Logger.Dashboard
import SovereignSeed.Logger.LiveBench
import SovereignSeed.Lineage.Recorder
import SovereignSeed.Logger.CrewFile
import SovereignSeed.Audit.Dashboard
import SovereignSeed.Audit.Progress
import SovereignSeed.Benchmark.Dashboard
import SovereignSeed.Foundation.Locked
import SovereignSeed.Benchmark.Lanes
