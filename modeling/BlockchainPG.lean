import BlockchainPG.Mvcc.Vacuum
import BlockchainPG.Mbt.PageLoad
import BlockchainPG.Executor.AuthConditions
import BlockchainPG.Mbt.Addresses
import BlockchainPG.Mvcc.Clog
import BlockchainPG.Mvcc.OldestXmin
import BlockchainPG.Storage.LWLockSafety
import BlockchainPG.Storage.PageFreeSpace
import BlockchainPG.Access.HashIndex
import BlockchainPG.Access.HeapTupleAccess
import BlockchainPG.Storage.SinvalStarvation
import BlockchainPG.Mbt.RangeCover
import BlockchainPG.Storage.DeadlockSearch
import BlockchainPG.Storage.FreeSpaceMap
import BlockchainPG.Executor.TupleValue
import BlockchainPG.Libpq.CompletionTags
import BlockchainPG.Utils.Int8
import BlockchainPG.Vo.Hashmap
import BlockchainPG.Utils.Numeric
import BlockchainPG.Access.HashAddress
import BlockchainPG.Utils.DateTime
import BlockchainPG.Utils.LikeMatch
import BlockchainPG.Utils.TextPosition
import BlockchainPG.Mbt.Dump
import BlockchainPG.Libpq.LeafHashes
import BlockchainPG.Optimizer.PrepQual
