import Redbit.Lib.Table
import Redbit.Lib.Lru
import Redbit.Lib.Outlet
import Redbit.Lib.Run
import Redbit.Lib.Net
import Redbit.Lib.Merge
import Redbit.Lib.Codec
import Redbit.Lib.Adjacent
import Redbit.Lib.Apportion
import Redbit.Lib.Cut
import Redbit.Lib.Residue
import Redbit.Storage.DictTable
import Redbit.Storage.DictRefine
import Redbit.Storage.DictBatch
import Redbit.Storage.IndexTable
import Redbit.Storage.WriteTable
import Redbit.Storage.IndexCache
import Redbit.Storage.Rollback
import Redbit.Storage.SortBuffer
import Redbit.Storage.BufferOrder
import Redbit.Storage.GallopBounds
import Redbit.Storage.CacheAlloc
import Redbit.Storage.TxFsm
import Redbit.Storage.TxAtomic
import Redbit.Storage.TxStop
import Redbit.Storage.Router
import Redbit.Storage.Barrier
import Redbit.Storage.WriterNet
import Redbit.Storage.Sharding
import Redbit.Storage.PartitionBytes
import Redbit.Storage.FanOut
import Redbit.Storage.WriteCtx
import Redbit.Storage.Stage
import Redbit.Storage.NoStuck
import Redbit.Storage.FlushFuture
import Redbit.Storage.TwoPhase
import Redbit.Entity.FieldParser
import Redbit.Entity.ChainOrder
import Redbit.Entity.RootLast
import Redbit.Demo.Store
import Redbit.Demo.Hook
import Redbit.Storage.Column
import Redbit.Storage.Overwrite
import Redbit.Storage.ReadBack
import Redbit.Storage.Reinsert
import Redbit.Storage.FreshRows
import Redbit.Entity.EntityStore
import Redbit.Entity.Replace
import Redbit.Entity.Tail
import Redbit.Entity.RoundTrip
import Redbit.Entity.Filter
import Redbit.Entity.ReadContext
import Redbit.Entity.Readers
import Redbit.Entity.Select
import Redbit.Storage.Erase
import Redbit.Entity.Delete
import Redbit.Entity.Pointer
import Redbit.Entity.PointerText
import Redbit.Chain.Syncer
import Redbit.Chain.ForkLink
import Redbit.Chain.Validate
import Redbit.Chain.Batchers
import Redbit.Chain.BatchLaws
import Redbit.Chain.Pipeline
import Redbit.Chain.Delivery
import Redbit.Chain.Crash
import Redbit.Chain.Plan
import Redbit.Coin.BlockIds
import Redbit.Coin.Address
import Redbit.Coin.BtcAddress
import Redbit.Coin.LtcAddress
import Redbit.Coin.AssetName
import Redbit.Storage.Reopen
import Redbit.Storage.Tidy
import Redbit.Storage.KeyLists
import Redbit.Entity.StoreMap
import Redbit.Entity.Append
import Redbit.Entity.KeyReads
import Redbit.Entity.IndexQuery
import Redbit.Storage.Skew
import Redbit.Entity.Skew
import Redbit.Chain.ChainStore
import Redbit.Chain.Follow
import Redbit.Chain.Tasks
import Redbit.Chain.TasksEnd
import Redbit.Chain.TasksComplete
import Redbit.Chain.BlockChain
