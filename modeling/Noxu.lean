import Noxu.Library.BinarySearch
import Noxu.Library.KeyRange
import Noxu.Library.Bytes
import Noxu.Library.ByteOrder
import Noxu.Library.Run
import Noxu.Library.Search
import Noxu.Library.Decode
import Noxu.Util.Packed
import Noxu.Util.SortedPacked
import Noxu.Bind.TupleInput
import Noxu.Bind.SortKey
import Noxu.Bind.SimpleSerial
import Noxu.Tree.Key
import Noxu.Tree.Bin
import Noxu.Tree.BinSpec
import Noxu.Tree.Node
import Noxu.Tree.Routing
import Noxu.Tree.Insertion
import Noxu.Tree.Operations
import Noxu.Tree.Contents
import Noxu.Tree.Compress
import Noxu.Tree.Maintenance
import Noxu.Tree.RangeSeek
import Noxu.Tree.LeafWalk
import Noxu.Dbi.Resort
import Noxu.Tree.MemoryCounter
import Noxu.Log.Entry
import Noxu.Log.LnLogEntry
import Noxu.Tree.Image
import Noxu.Tree.Codec
import Noxu.Recovery.Redo
import Noxu.Recovery.Analysis
import Noxu.Recovery.Catalog
import Noxu.Recovery.Undo
import Noxu.Recovery.TxnChain
import Noxu.Recovery.CheckpointEnd
import Noxu.Recovery.Drivers
import Noxu.Recovery.MissingImage
import Noxu.Recovery.RollbackTracker
import Noxu.Rep.Choice
import Noxu.Rep.Election
import Noxu.Rep.FreezeLatch
import Noxu.Rep.Feeders
import Noxu.Rep.CleanerFloor
import Noxu.Rep.Messages
import Noxu.Rep.Transfer
import Noxu.Rep.VlsnIndex
import Noxu.Rep.VlsnRange
import Noxu.Rep.PeerQueue
import Noxu.Rep.SyncupLog
import Noxu.Rep.Syncup
import Noxu.Rep.Matchpoint
import Noxu.Rep.Handshake
import Noxu.Rep.AcceptorState
import Noxu.Rep.Ballot
import Noxu.Rep.Quorum
import Noxu.Txn.Lock
import Noxu.Txn.LockImpl
import Noxu.Txn.LockTable
import Noxu.Txn.ThinLock
import Noxu.Txn.Versions
import Noxu.Txn.WakeUp
import Noxu.Txn.LockManager
import Noxu.Txn.Deadlock
import Noxu.Txn.WriteLocks
import Noxu.Txn.TwoPhase
import Noxu.Cleaner.TwoPass
import Noxu.Cleaner.Migration
import Noxu.Dbi.NameLn
import Noxu.Dbi.DupKeyData
import Noxu.Db.JoinCursor
import Noxu.Db.Population
import Noxu.Dbi.EntryCounter
import Noxu.Library.Rows
import Noxu.Tree.KeyRep
import Noxu.Cleaner.PackedOffsets
import Noxu.Library.PairList
import Noxu.Tree.TargetRep
import Noxu.Dbi.DiskOrderedCursor
import Noxu.Collections.StoredList
