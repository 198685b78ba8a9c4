import Expanse.Library.Radix
import Expanse.Library.SortedAssoc
import Expanse.Library.Columns
import Expanse.Library.RankedArray
import Expanse.Library.BitFields
import Expanse.Library.BitScan
import Expanse.Library.Walks
import Expanse.Library.Runs
import Expanse.Library.Grouping
import Expanse.Library.Arrays
import Expanse.Library.Packed
import Expanse.Library.BigEndian
import Expanse.Library.Puts
import Expanse.Library.Ensures
import Expanse.Engine.Branch
import Expanse.Engine.Edge
import Expanse.Engine.Content
import Expanse.Engine.Update
import Expanse.Engine.Skip
import Expanse.Engine.Get
import Expanse.Engine.GetSpec
import Expanse.Engine.Insert
import Expanse.Engine.Path
import Expanse.Engine.BranchStep
import Expanse.Engine.InsertTerminal
import Expanse.Engine.InsertBranch
import Expanse.Engine.Overflow
import Expanse.Engine.Cascade
import Expanse.Engine.InsertSpec
import Expanse.Engine.PathSpec
import Expanse.Engine.SlotSpec
import Expanse.Engine.Remove
import Expanse.Engine.RemoveSpec
import Expanse.Engine.Nav
import Expanse.Engine.NavSpec
import Expanse.Engine.NavBack
import Expanse.Engine.Iter
import Expanse.Engine.IterLeaf
import Expanse.Engine.IterSeek
import Expanse.Engine.IterFrame
import Expanse.Engine.IterSpec
import Expanse.Engine.IterDescend
import Expanse.Engine.IterRun
import Expanse.Engine.IterTree
import Expanse.Engine.Cursor
import Expanse.Engine.CursorSpec
import Expanse.Store.Store
import Expanse.Store.Inv
import Expanse.Store.Warm
import Expanse.Store.InsertInv
import Expanse.Store.StoreSpec
import Expanse.Store.Faithful
import Expanse.Store.SlotInv
import Expanse.Store.Set
import Expanse.Store.Map
import Expanse.Store.Counts
import Expanse.Store.Iterators
import Expanse.Store.Cursors
import Expanse.Engine.Validate
import Expanse.Store.Validate
import Expanse.Engine.Build
import Expanse.Engine.BuildSpec
import Expanse.Store.Build
import Expanse.Store.Pathless
import Expanse.Store.Neighbours
import Expanse.Trie32.Arena
import Expanse.Trie32.Bitmap
import Expanse.Trie32.BitmapSpec
import Expanse.Trie32.Branch
import Expanse.Trie32.BranchSpec
import Expanse.Trie32.Leaf
import Expanse.Trie32.LeafSpec
import Expanse.Trie32.Owned
import Expanse.StrMap.WordMap
import Expanse.StrMap.Node
import Expanse.StrMap.Trie
import Expanse.StrMap.Heap
import Expanse.StrMap.Locate
import Expanse.StrMap.InsertSpec
import Expanse.StrMap.RemoveSpec
import Expanse.StrMap.Container
import Expanse.StrMap.ContainerSpec
import Expanse.StrMap.Tidy
import Expanse.StrMap.Neighbours
import Expanse.StrMap.NeighboursSpec
import Expanse.StrMap.Walk
import Expanse.StrMap.WalkSpec
import Expanse.StrMap.MapCore
import Expanse.Sync32.Reclaim
import Expanse.Sync32.ReclaimSpec
import Expanse.Library.Assoc
import Expanse.Library.Boxes
import Expanse.Library.Bytes
import Expanse.Library.OrderCode
import Expanse.Domain.Escape
import Expanse.BytesMap.Container
import Expanse.BytesMap.ContainerSpec
import Expanse.BytesMap.Publish
import Expanse.BytesMap.PublishSpec
import Expanse.Trie32.Ops
import Expanse.Library.Intervals
import Expanse.Library.NextFit
import Expanse.Blob.Slot
import Expanse.Blob.Arena
import Expanse.Blob.ArenaSpec
import Expanse.Blob.Map
import Expanse.Blob.Spans
import Expanse.Blob.CompactSpec
import Expanse.Blob.MapSpec
import Expanse.Blob.Reclaim
import Expanse.Blob.Image
import Expanse.Blob.ImageSpec
import Expanse.Blob.RoundTrip
import Expanse.Blob.Refit
import Expanse.Blob.CodecSpec
import Expanse.Blob.Scan
import Expanse.Occ.Version
import Expanse.Occ.VersionSpec
import Expanse.Occ.Collector
import Expanse.Occ.CollectorSpec
import Expanse.Occ.Epoch
import Expanse.Occ.EpochSpec
import Expanse.Library.SysHeap
import Expanse.Library.Classed
import Expanse.Alloc.NodeAlloc
import Expanse.Alloc.Blocks
import Expanse.Alloc.Invariant
import Expanse.Alloc.Steps
import Expanse.Alloc.Held
import Expanse.Alloc.Drop
import Expanse.Alloc.Census
import Expanse.Alloc.Unlink
import Expanse.Alloc.Release
import Expanse.Alloc.Accounts
import Expanse.Domain.Buffers
import Expanse.OrderedBytes.Cursor
import Expanse.OrderedBytes.CursorSpec
import Expanse.Set32.AlgebraMany
import Expanse.Library.Pool
import Expanse.Engine.Batch
import Expanse.Engine.BatchSpec
import Expanse.Engine.BatchWalk
import Expanse.Store.Batch
import Expanse.Engine.Split
import Expanse.Store.Split
import Expanse.Library.Lanes
import Expanse.Leaf.Memory
import Expanse.Leaf.Kernels
import Expanse.Leaf.Search
import Expanse.Leaf.SearchSpec
import Expanse.Leaf.Edit
import Expanse.Leaf.Shared
import Expanse.Leaf.SharedSpec
import Expanse.Library.Ends
import Expanse.Library.WordScan
import Expanse.Set32.Engine
import Expanse.Sync32.Writer
import Expanse.Sync32.WriterRuns
import Expanse.Library.Fanout
import Expanse.Library.Neighbours
import Expanse.Trie32.Tree
import Expanse.Trie32.TreeSpec
import Expanse.Trie32.Rep
import Expanse.Trie32.Refine
import Expanse.Trie32.RefineInsert
import Expanse.Trie32.RefineRemove
import Expanse.Trie32.Via
import Expanse.Trie32.Map
import Expanse.Trie32.Set
import Expanse.Trie32.Footprint
import Expanse.Trie32.Reads
import Expanse.Trie32.ReadsSpec
import Expanse.Trie32.Iter
import Expanse.Trie32.IterSpec
import Expanse.Trie32.Range
import Expanse.Trie32.Visit
import Expanse.Trie32.Canon
import Expanse.Trie32.Build
import Expanse.Trie32.Compact
import Expanse.Trie32.RemoveRange
import Expanse.Trie32.RemoveAll
import Expanse.Trie32.RangeBitmap
import Expanse.Trie32.RemoveRangeSpec
import Expanse.Trie32.MapRuns
import Expanse.Trie32.SetRuns
import Expanse.Trie32.Cursor
import Expanse.Trie32.Shared
import Expanse.Sync32.WriterSpec
import Expanse.Library.Slab
import Expanse.Blob32.Slot
import Expanse.Blob32.Map
import Expanse.Blob32.MapRuns
import Expanse.Blob.IndexedRuns
