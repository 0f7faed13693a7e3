import StorageEngine.Lib.AtomicObject
import StorageEngine.Lib.CheckedSpan
import StorageEngine.Lib.CountedRing
import StorageEngine.Lib.CrcParity
import StorageEngine.Lib.FrameScan
import StorageEngine.Lib.KeyedUpdates
import StorageEngine.Lib.Ledger
import StorageEngine.Lib.LittleEndian
import StorageEngine.Lib.Progress
import StorageEngine.Lib.ReflectedCrc
import StorageEngine.Lib.Splice
import StorageEngine.Lib.Transition
import StorageEngine.Common
import StorageEngine.Task
import StorageEngine.Task.Waiting
import StorageEngine.Task.Awaiting
import StorageEngine.Task.Ownership
import StorageEngine.WriteBatch
import StorageEngine.Wal.Crc
import StorageEngine.Wal.Encode
import StorageEngine.Wal.Fragments
import StorageEngine.Wal.Decode
import StorageEngine.Wal.RoundTrip
import StorageEngine.Wal.Damage
import StorageEngine.Wal.OddErrors
import StorageEngine.Wal.Grammar
import StorageEngine.Wal.Accepted
import StorageEngine.Wal.Prefixes
import StorageEngine.Wal.Safety
import StorageEngine.MemTable
import StorageEngine.MemTable.Sequential
import StorageEngine.MemTable.Visibility
import StorageEngine.MemTable.Stats
import StorageEngine.Io.Executor
import StorageEngine.Io.Submission
import StorageEngine.Io.Fifo
import StorageEngine.Io.Completion
import StorageEngine.Io.Delivery
import StorageEngine.Io.EndToEnd
import StorageEngine.Io.SqPoll
import StorageEngine.Io.Closing
import StorageEngine.Io.Resources
import StorageEngine.Db.Model
import StorageEngine.Db.Recovery
import StorageEngine.Db.Sessions
import StorageEngine.Db.Restarts
import StorageEngine.Db.Instances
import StorageEngine.Db.Resources
import StorageEngine.Db.Sequences
import StorageEngine.Db.Grouping
import StorageEngine.Db.Counter
import StorageEngine.Db.Failures
import StorageEngine.Db.PowerLoss
import StorageEngine.Queue.Model
import StorageEngine.Queue.Serial
import StorageEngine.Queue.Arming
import StorageEngine.Queue.Overtaking
import StorageEngine.Queue.Sessions
import StorageEngine.Queue.Footprint
import StorageEngine.Queue.Shutdown
import StorageEngine.Queue.Nested
import StorageEngine.Queue.Wakeup
import StorageEngine.Queue.Progress
import StorageEngine.Queue.Readers
import StorageEngine.Queue.Linearizable
import StorageEngine.Queue.Snapshots
