import Hyperplane.Lib.Transition
import Hyperplane.Lib.Threads
import Hyperplane.Lib.RwLock
import Hyperplane.Lib.Bytes
import Hyperplane.Lib.Method
import Hyperplane.Lib.Newest
import Hyperplane.Lib.Crc32
import Hyperplane.Lib.Ascending
import Hyperplane.Types.Account
import Hyperplane.Types.SlotContext
import Hyperplane.Types.SlotTracker
import Hyperplane.Ring.Buffer
import Hyperplane.Ring.Layout
import Hyperplane.Ring.Bounds
import Hyperplane.Ring.Entries
import Hyperplane.Ring.Interleaving
import Hyperplane.Ring.SingleProducer
import Hyperplane.Ring.Plugin
import Hyperplane.Delta.Consumer
import Hyperplane.Delta.Polling
import Hyperplane.Lib.IdSet
import Hyperplane.Lib.Postings
import Hyperplane.Lib.KeyedLists
import Hyperplane.Types.Bitmap
import Hyperplane.Index.BitmapIndex
import Hyperplane.Index.Indexes
import Hyperplane.Index.LsmBitmap
import Hyperplane.Index.LsmRuns
import Hyperplane.Index.LsmInterleaving
import Hyperplane.Index.LsmCompactions
import Hyperplane.Index.LsmReaders
import Hyperplane.Index.LsmStats
import Hyperplane.Index.AdaptiveIndex
import Hyperplane.Index.AdaptiveQueries
import Hyperplane.Index.AdaptiveManager
import Hyperplane.Index.TieredDictionary
import Hyperplane.Index.TieredDictionaryRuns
import Hyperplane.Index.TieredIndex
import Hyperplane.Index.TieredIndexRuns
import Hyperplane.Index.HotColdManager
import Hyperplane.Index.MemcmpAccelerator
import Hyperplane.Index.IndexRuns
import Hyperplane.Index.QueryCache
import Hyperplane.Index.QueryCacheRuns
import Hyperplane.Index.QueryCacheRestarts
import Hyperplane.Index.QueryCacheEviction
import Hyperplane.Index.SharedMemory
import Hyperplane.Index.SimdBitmap
import Hyperplane.Index.SimdLists
import Hyperplane.Index.BitmapStore
import Hyperplane.Query.CostModel
import Hyperplane.Query.PlanCost
import Hyperplane.Query.StatisticsRefresh
import Hyperplane.Query.CostModelLocks
import Hyperplane.Query.Planner
import Hyperplane.Query.Answers
import Hyperplane.Manager.IndexManager
import Hyperplane.Manager.Keys
import Hyperplane.Manager.History
import Hyperplane.Query.Freshness
import Hyperplane.Query.Pagination
import Hyperplane.Query.PaginationWalks
import Hyperplane.Query.UntrustedCursors
import Hyperplane.Cache.Invalidation
import Hyperplane.Cache.InvalidationPrecision
import Hyperplane.Cache.L1HotCache
import Hyperplane.Cache.L1Bound
import Hyperplane.Cache.EncodedCache
import Hyperplane.Cache.CacheKeys
import Hyperplane.Cache.FiltersHash
import Hyperplane.Rpc.RateLimiter
import Hyperplane.Lib.Checked
import Hyperplane.Base.LocationCodec
import Hyperplane.Base.RocksLocator
import Hyperplane.Scan.AccountParser
import Hyperplane.Scan.RecordReaders
import Hyperplane.Scan.AppendVec
import Hyperplane.Scan.RoundTrip
import Hyperplane.Scan.BaseLocator
import Hyperplane.Scan.RandomAccess
import Hyperplane.Scan.Scanner
import Hyperplane.Scan.MmapReader
import Hyperplane.Types.Dictionary
import Hyperplane.Base.PubkeyDict
import Hyperplane.Base.DictRuns
import Hyperplane.Base.DictFailures
import Hyperplane.Base.DictInterleaving
import Hyperplane.Lib.MerkleTree
import Hyperplane.Base.Merkle
import Hyperplane.Base.MerkleSoundness
import Hyperplane.Base.BatchChecksum
import Hyperplane.Delta.Compactor
import Hyperplane.Delta.SegmentFile
import Hyperplane.Delta.SegmentLayout
import Hyperplane.Delta.SegmentChecksum
import Hyperplane.Delta.SegmentFailures
import Hyperplane.Delta.History
import Hyperplane.Delta.Retention
import Hyperplane.Delta.Orphans
import Hyperplane.Delta.Latest
import Hyperplane.Delta.ReducerRuns
import Hyperplane.Delta.ReducerCounts
import Hyperplane.Delta.LocatorRuns
import Hyperplane.Reconciler.SlotReconciler
import Hyperplane.Reconciler.Interleaving
import Hyperplane.Reconciler.Watermarks
import Hyperplane.Reconciler.RootTracker
import Hyperplane.Reconciler.WatermarkTracker
import Hyperplane.Scan.Bootstrap
import Hyperplane.Delta.SegmentHistory
import Hyperplane.Runtime.Locks
import Hyperplane.Index.MemcmpPrograms
import Hyperplane.Rpc.Exchanges
import Hyperplane.Runtime.Loops
import Hyperplane.Cache.Dragonfly
import Hyperplane.Query.Intersections
import Hyperplane.Index.NumaFabric
import Hyperplane.Index.Lookups
import Hyperplane.Scan.BatchReader
import Hyperplane.Base.Commitment
import Hyperplane.Delta.CompactionRuns
import Hyperplane.Index.AdaptiveMigrations
import Hyperplane.Index.TieredQueries
