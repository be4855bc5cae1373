import Mokv.Lib.MapM
import Mokv.Lib.Run
import Mokv.Lib.Bisect
import Mokv.Lib.SortedAssoc
import Mokv.Lib.Links
import Mokv.Lib.PriorityQueue
import Mokv.Lib.Quorum
import Mokv.Lib.Rpc
import Mokv.Lib.StreamDecoder
import Mokv.Lib.LittleEndian
import Mokv.Lib.Escape
import Mokv.Lib.Decimal
import Mokv.Lib.Binary64
import Mokv.Lib.Poke
import Mokv.Lib.NodeIndex
import Mokv.Lib.Runs
import Mokv.Lib.Recency
import Mokv.Lib.Numeral
import Mokv.Lib.FirstMatch
import Mokv.Lib.Ring
import Mokv.Lib.Tally
import Mokv.Lib.CondVar
import Mokv.Lib.Chain
import Mokv.Bytes
import Mokv.Codec
import Mokv.LSM.MemTable
import Mokv.LSM.BatchCommit
import Mokv.LSM.BatchWriteOptimizer
import Mokv.LSM.SkipList.Basic
import Mokv.LSM.SkipList.Search
import Mokv.LSM.SkipList.Pointers
import Mokv.LSM.SkipList.Refinement
import Mokv.LSM.SST
import Mokv.LSM.Merge
import Mokv.LSM.Manifest
import Mokv.LSM.Compaction
import Mokv.LSM.CompactionRange
import Mokv.LSM.Cascade
import Mokv.LSM.Words
import Mokv.LSM.WriterWakeups
import Mokv.LSM.ManifestIds
import Mokv.LSM.ManifestFile
import Mokv.LSM.BloomFilter
import Mokv.LSM.SSTFile
import Mokv.LSM.BloomFilterMembers
import Mokv.LSM.BlockBounds
import Mokv.LSM.SSTRoundTrip
import Mokv.LSM.TableFiles
import Mokv.LSM.MappedCompaction
import Mokv.LSM.BlockOffset
import Mokv.LSM.BlockMerge
import Mokv.Compression.Snappy
import Mokv.Compression.SnappyBounds
import Mokv.Compression.SnappyRoundTrip
import Mokv.Compression.LZ4
import Mokv.LSM.BlockCache
import Mokv.LSM.BlockCacheOrder
import Mokv.LSM.BlockCacheHits
import Mokv.LSM.BlockCacheLimits
import Mokv.LSM.AsyncSSTWriter
import Mokv.LSM.ReadQuorum
import Mokv.Cache.ConcurrentLRUCache
import Mokv.Cache.NodeList
import Mokv.Cache.SequentialLRU
import Mokv.Cache.CMSketch
import Mokv.Cache.Concurrent2LRUCache
import Mokv.DB.Basic
import Mokv.DB.Refinement
import Mokv.DB.Concurrent
import Mokv.DB.Custody
import Mokv.DB.Lookups
import Mokv.DB.Session
import Mokv.DB.FlushThread
import Mokv.DB.Handover
import Mokv.DB.Restart
import Mokv.DB.FileIds
import Mokv.DB.Crash
import Mokv.DB.Durable
import Mokv.DB.Disk
import Mokv.Pool.ThreadPool
import Mokv.KVStore.Basic
import Mokv.KVStore.Ledger
import Mokv.KVStore.Bookkeeping
import Mokv.KVStore.Neutral
import Mokv.KVStore.Concurrent
import Mokv.KVStore.Reopen
import Mokv.KVStore.Durable
import Mokv.KVStore.Client
import Mokv.KVStore.Threads
import Mokv.LLM.Records
import Mokv.LLM.Keyspace
import Mokv.LLM.Stores
import Mokv.LLM.Represents
import Mokv.LLM.Conversations
import Mokv.LLM.Refinement
import Mokv.LLM.Backend
import Mokv.LLM.Durable
import Mokv.LLM.Listing
import Mokv.LLM.Summaries
import Mokv.LLM.Concurrent
import Mokv.Raft.RingBuffer
import Mokv.Raft.RingBufferRefinement
import Mokv.Raft.RaftLog
import Mokv.Raft.Applier
import Mokv.Raft.Acknowledge
import Mokv.Raft.Waiters
import Mokv.Raft.Sessions
import Mokv.Raft.Election
import Mokv.Raft.Replication
import Mokv.Raft.Cluster
import Mokv.Raft.ElectionMoves
import Mokv.Raft.Heartbeat
import Mokv.Raft.Clients
import Mokv.Raft.ReplicaMoves
import Mokv.Raft.Transport
import Mokv.Raft.StateMachineSafety
import Mokv.Raft.PutCalls
import Mokv.Raft.Databases
import Mokv.Raft.ElectionSafety
import Mokv.Raft.LeaderCompleteness
import Mokv.Raft.LogMatching
import Mokv.Raft.LossyCalls
import Mokv.Raft.Locks
import Mokv.Raft.Append
import Mokv.Raft.CommitTests
import Mokv.Raft.CatchUp
import Mokv.Config.LegacyFile
import Mokv.Config.RoundTrip
import Mokv.Config.LocalAddress
import Mokv.Config.Numerals
