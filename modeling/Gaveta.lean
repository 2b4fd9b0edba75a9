import Gaveta.CString
import Gaveta.Library.PagedTree
import Gaveta.Library.SearchTree
import Gaveta.Library.Insertion
import Gaveta.Library.Interruption
import Gaveta.Library.LeafMap
import Gaveta.Library.Spans
import Gaveta.Library.Clock
import Gaveta.Library.Fifo
import Gaveta.Library.Links
import Gaveta.Library.Decimal
import Gaveta.Library.Scratch
import Gaveta.Library.GapSort
import Gaveta.Library.Shifting
import Gaveta.Library.BitMixing
import Gaveta.Library.SortedCut
import Gaveta.Memory.Pool
import Gaveta.Memory.Heap
import Gaveta.Memory.Replacement
import Gaveta.Memory.Lock
import Gaveta.Memory.FirstFit
import Gaveta.Memory.SecondChance
import Gaveta.Memory.Counter
import Gaveta.Memory.Reallocation
import Gaveta.Memory.FreeQuery
import Gaveta.BTree.Node
import Gaveta.BTree.Pager
import Gaveta.BTree.FileLayout
import Gaveta.BTree.NodeCache
import Gaveta.BTree.CacheCoherence
import Gaveta.BTree.Insert
import Gaveta.BTree.Search
import Gaveta.BTree.Remove
import Gaveta.BTree.Keeps
import Gaveta.BTree.Resident
import Gaveta.BTree.InsertStep
import Gaveta.BTree.InsertRun
import Gaveta.BTree.Lookup
import Gaveta.BTree.RangeSearch
import Gaveta.BTree.RrnUniqueness
import Gaveta.BTree.FailedInsert
import Gaveta.BTree.Rebuild
import Gaveta.BTree.RootRecord
import Gaveta.BTree.EvictionStep
import Gaveta.BTree.Eviction
import Gaveta.BTree.RemoveStep
import Gaveta.BTree.Removal
import Gaveta.BTree.Reclaim
import Gaveta.BTree.AbsentRemoval
import Gaveta.BTree.SplitArrays
import Gaveta.BTree.LeafArrays
import Gaveta.BTree.LeafRow
import Gaveta.BTree.KeyOrder
import Gaveta.BTree.SortList
import Gaveta.Structures.Arena
import Gaveta.Structures.LinkedList
import Gaveta.Structures.HashTable
import Gaveta.Structures.HashTableRelease
import Gaveta.Structures.HashTableKeys
import Gaveta.Structures.LongKeys
import Gaveta.Structures.Queue
import Gaveta.Structures.Murmur
import Gaveta.Structures.RollingHash
import Gaveta.Structures.DynamicArray
import Gaveta.Config.Scanner
import Gaveta.Config.BtreeConfig
import Gaveta.Config.Termination
import Gaveta.Config.StaleFields
import Gaveta.Config.Lines
import Gaveta.Config.Schema
import Gaveta.Config.EntryOrder
import Gaveta.BTree.NodeSizes
import Gaveta.Structures.ListFiles
import Gaveta.Structures.QueueFiles
import Gaveta.Structures.StringFiles
import Gaveta.BTree.FreeListFiles
import Gaveta.BTree.Dictionary
import Gaveta.BTree.CachedRuns
import Gaveta.BTree.SearchCost
import Gaveta.Memory.Fragmentation
import Gaveta.Memory.SharedPool
import Gaveta.BTree.DataFile
import Gaveta.Structures.QueueLife
import Gaveta.Structures.ListLife
import Gaveta.BTree.PoolUse
import Gaveta.BTree.Views
import Gaveta.BTree.Retains
import Gaveta.BTree.PoolNeed
