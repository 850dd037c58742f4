import Vanadium.Agent.IpcProgress
import Vanadium.Blob.ChunkBounds
import Vanadium.Blob.Confinement
import Vanadium.Blob.ServerScan
import Vanadium.Flow.BufferingFlow
import Vanadium.Flow.FlowControl
import Vanadium.Flow.TurnTaking
import Vanadium.Fs.Memstore
import Vanadium.Lib.Semaphore
import Vanadium.Manager.CacheIndex
import Vanadium.MountTable.Persistence
import Vanadium.Naming.FlushCache
import Vanadium.Peers.PinBalance
import Vanadium.Proxy.Routes
import Vanadium.Raft.ElectionSafety
import Vanadium.Raft.Restart
import Vanadium.Raft.SnapshotTransfer
import Vanadium.Signing.AuthorSignature
import Vanadium.Signing.VerifyingReader
import Vanadium.Store.PtrieStream
import Vanadium.Store.Transactions
import Vanadium.Store.Versioned
import Vanadium.Store.WatchLog
import Vanadium.VClock.ClockChanges
import Vanadium.Vsync.BatchBookkeeping
import Vanadium.Vsync.Checkpoint
import Vanadium.Vsync.ConflictAncestor
import Vanadium.Vsync.DeltaExact
import Vanadium.Vsync.KnowledgeMerge
import Vanadium.Vsync.LinearHistory
import Vanadium.Vsync.Policy
import Vanadium.Vsync.Reissue
import Vanadium.Vsync.Replay
