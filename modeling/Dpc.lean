import Dpc.Lib.Prog
import Dpc.Lib.Safe
import Dpc.Lib.FileTree
import Dpc.Lib.LexPath
import Dpc.Common.Hash
import Dpc.Common.FileUtils
import Dpc.Core.Chunkers
import Dpc.Core.Compressor
import Dpc.Core.ObjectStore
import Dpc.Core.ManifestCodec
import Dpc.Core.ManifestRoundTrip
import Dpc.Core.ManifestFormat
import Dpc.Core.BackupEngine
import Dpc.Core.Readers
import Dpc.Lib.Extract
import Dpc.Network.BackupClient
import Dpc.Common.EffectFacts
import Dpc.Core.VersionFacts
import Dpc.Core.ObjectFacts
import Dpc.Core.BackupFacts
import Dpc.Core.PublishFacts
import Dpc.Core.Emitted
import Dpc.Core.FileScanner
import Dpc.Core.ReadFacts
import Dpc.Core.RestoreFacts
import Dpc.Core.ScanFacts
import Dpc.Core.RawFrames
import Dpc.Network.SessionFacts
import Dpc.Metadata.CheckpointFacts
import Dpc.Metadata.MaintenanceFacts
import Dpc.Network.GroupFacts
import Dpc.Network.ServerFacts
import Dpc.Guarantees.Verified
import Dpc.Guarantees.Sources
import Dpc.Guarantees.Freshness
import Dpc.Guarantees.History
import Dpc.Guarantees.Visible
import Dpc.Guarantees.Readable
import Dpc.Lib.Failure
import Dpc.Core.FailureFacts
import Dpc.Core.UnpackFacts
import Dpc.Network.FailureFacts
import Dpc.Guarantees.Contained
import Dpc.Lib.Framing
import Dpc.Metadata.WalFormat
import Dpc.Guarantees.Logs
import Dpc.Network.PacketStream
import Dpc.Guarantees.Framed
import Dpc.Guarantees.Agreement
import Dpc.Lib.Footprint
import Dpc.Lib.Halted
import Dpc.Lib.Carried
import Dpc.Lib.Monitor
import Dpc.Concurrency.BoundedQueue
import Dpc.Concurrency.ThreadPool
import Dpc.Guarantees.Asked
import Dpc.Guarantees.Chunked
import Dpc.Guarantees.Confined
import Dpc.Guarantees.Accounted
import Dpc.Guarantees.Acked
import Dpc.Network.TornSession
import Dpc.Network.StatusFacts
import Dpc.Guarantees.Snapshots
import Dpc.Guarantees.Torn
import Dpc.Guarantees.Raced
import Dpc.Guarantees.Recommitted
import Dpc.Guarantees.Resumed
import Dpc.Guarantees.Addressed
import Dpc.Common.SystemCalls
import Dpc.Guarantees.Durable
import Dpc.Guarantees.Recovered
import Dpc.Guarantees.Littered
import Dpc.Common.AtomicWrite
import Dpc.Guarantees.Atomic
import Dpc.Guarantees.Lossless
import Dpc.Lib.Duo
import Dpc.Guarantees.Concurrent
import Dpc.Guarantees.Delivered
import Dpc.Lib.Crc
import Dpc.Guarantees.Detected
import Dpc.Network.PayloadFacts
import Dpc.Guarantees.Payloads
import Dpc.Guarantees.Rejected
import Dpc.Guarantees.Truncated
import Dpc.Lib.Cuts
import Dpc.Lib.Groups
import Dpc.Network.PreparedFacts
import Dpc.Network.RegroupFacts
import Dpc.Network.UploadFacts
import Dpc.Guarantees.Uploaded
import Dpc.Guarantees.Interrupted
import Dpc.Guarantees.Progress
import Dpc.Network.PieceFacts
import Dpc.Guarantees.Leftover
import Dpc.Lib.Steady
import Dpc.Metadata.UpkeepEmitted
import Dpc.Guarantees.Immutable
import Dpc.Guarantees.Garbled
import Dpc.Lib.Dialog
import Dpc.Lib.Mirrors
import Dpc.Network.Wire
import Dpc.Guarantees.Conversed
import Dpc.Metadata.FaultInjector
import Dpc.Guarantees.Injected
import Dpc.Guarantees.Tampered
import Dpc.Cli.BackupCtl
import Dpc.Guarantees.Tallied
import Dpc.Lib.Learns
import Dpc.Guarantees.Truthful
import Dpc.Guarantees.Moving
import Dpc.Guarantees.Answered
import Dpc.Guarantees.Drained
import Dpc.Guarantees.Incremental
