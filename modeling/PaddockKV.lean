import PaddockKV.Concurrent.Maintenance
import PaddockKV.Concurrent.Serial
import PaddockKV.Concurrent.Snapshot
import PaddockKV.Encoding.Canonical
import PaddockKV.Engine.Crashes
import PaddockKV.Engine.FailedCalls
import PaddockKV.Engine.FailedCommits
import PaddockKV.Engine.FailedWrites
import PaddockKV.Engine.LongBatches
import PaddockKV.Engine.Lookups
import PaddockKV.Engine.Numbering
import PaddockKV.Engine.RangeFaults
import PaddockKV.Engine.Repeatable
import PaddockKV.Engine.Unlinks
import PaddockKV.Engine.WalIds
import PaddockKV.Headers
import PaddockKV.Io.Uring
import PaddockKV.Memtable.Concurrent
import PaddockKV.Memtable.Iteration
import PaddockKV.Memtable.Probes
import PaddockKV.Memtable.Multimap
import PaddockKV.Memtable.Nodes
import PaddockKV.Memtable.PointerRefinement
import PaddockKV.Memtable.Sequential
import PaddockKV.Server.MasterKey
import PaddockKV.Sstable.Authentic
import PaddockKV.Sstable.Layout
import PaddockKV.Sstable.Total
import PaddockKV.Vfs.EngineFiles
import PaddockKV.Vfs.MemVfs
import PaddockKV.Wal.Flip
import PaddockKV.Wal.Total
import PaddockKV.Wal.Wire
