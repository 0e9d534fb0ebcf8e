import ChunkCache.AttributeMap.Family
import ChunkCache.Document
import ChunkCache.NameIndex
import ChunkCache.Session
import ChunkCache.Proofs.Cache.Ledger
import ChunkCache.Proofs.Cache.Room
import ChunkCache.Proofs.Cache.Batch
import ChunkCache.Proofs.Cache.Watch
import ChunkCache.Proofs.Cache.Refused
import ChunkCache.Proofs.RowTree.Floor
import ChunkCache.Proofs.RowTree.RedBlack
import ChunkCache.Proofs.RowTree.Traversal
import ChunkCache.Proofs.RowTree.Repair
import ChunkCache.Proofs.Timeline
import ChunkCache.Proofs.Merge
import ChunkCache.Proofs.RoundTrip
import ChunkCache.Proofs.Cache.Traffic
import ChunkCache.Proofs.Canonical
import ChunkCache.Proofs.Grammar
import ChunkCache.Proofs.NormalForm
import ChunkCache.Proofs.RowOrder
import ChunkCache.Proofs.Family
import ChunkCache.Proofs.Tracking
import ChunkCache.Proofs.IdGenerator
import ChunkCache.Proofs.Cache.Cells
import ChunkCache.Proofs.Cache.Attempts
import ChunkCache.Proofs.Cache.Eviction
import ChunkCache.Proofs.Cache.Fork
import ChunkCache.Proofs.Address
import ChunkCache.Proofs.Loading
import ChunkCache.Proofs.Revision
import ChunkCache.Proofs.Multimap
import ChunkCache.Proofs.SlotQueue.Deque
