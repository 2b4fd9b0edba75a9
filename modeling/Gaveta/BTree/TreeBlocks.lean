import Gaveta.BTree.RootRecord
import Gaveta.BTree.SearchCost
import Gaveta.BTree.Synced
import Gaveta.Memory.Fragmentation
import Gaveta.Structures.LinkedList
import Gaveta.Structures.Queue

/-! The blocks that a tree takes from the pool and gives back. -/

namespace Gaveta

namespace Heap

def gAlloc (heap : Heap) (bytes : Nat) : Option (Heap × Block) :=
  if numPages bytes ≤ heap.memory.freePageNum then
    match gAllocate heap.memory bytes with
    | some (memory, some address) =>
        let block : Block := { address := address, bytes := bytes }
        some ({ memory := memory, live := block :: heap.live }, block)
    | _ => none
  else none

def gDealloc (heap : Heap) (block : Block) : Heap where
  memory := gDeallocate heap.memory (some block.address)
  live := heap.live.erase block

def gAllocPair (heap : Heap) (node data : Nat) : Option (Heap × Block × Block) := do
  let (heap, first) ← heap.gAlloc node
  let (heap, second) ← heap.gAlloc data
  some (heap, first, second)

def gDeallocPair (heap : Heap) (pair : Block × Block) : Heap :=
  (heap.gDealloc pair.2).gDealloc pair.1

def gAllocAll (heap : Heap) : List Nat → Option (Heap × List Block)
  | [] => some (heap, [])
  | bytes :: rest => do
      let (heap, block) ← heap.gAlloc bytes
      let (heap, blocks) ← heap.gAllocAll rest
      some (heap, block :: blocks)

theorem gAlloc_taken {heap after : Heap} {bytes : Nat} {block : Block}
    (accounted : Accounted heap 0) (allocated : heap.gAlloc bytes = some (after, block)) :
    Accounted after 0 ∧ after.memory.len = heap.memory.len ∧ after.live = block :: heap.live ∧
      block.bytes = bytes := by
  rw [Heap.gAlloc] at allocated
  split_ifs at allocated with served
  split at allocated
  · rename_i memory address returned
    cases allocated
    have acts : heap.act (.allocate bytes) =
        some { memory := memory, live := ⟨address, bytes⟩ :: heap.live } := by
      simp only [Heap.act, returned]
    exact ⟨accounted.allocate served acts, (gAllocate_len returned).1, rfl, rfl⟩
  · cases allocated

theorem gAllocAll_taken {heap after : Heap} {requests : List Nat} {blocks : List Block}
    (accounted : Accounted heap 0) (allocated : heap.gAllocAll requests = some (after, blocks)) :
    Accounted after 0 ∧ after.live.Perm (blocks ++ heap.live) ∧
      after.memory.freePageNum + (requests.map numPages).sum = heap.memory.freePageNum := by
  induction requests generalizing heap blocks with
  | nil =>
      cases allocated
      exact ⟨accounted, .refl _, rfl⟩
  | cons bytes rest ih =>
      simp only [gAllocAll, Option.bind_eq_bind, Option.bind_eq_some_iff, Prod.exists,
        Option.some.injEq, Prod.mk.injEq] at allocated
      obtain ⟨middle, block, first, _, others, second, rfl, rfl⟩ := allocated
      obtain ⟨kept, len, live, asked⟩ := gAlloc_taken accounted first
      obtain ⟨whole, more, free⟩ := ih kept second
      refine ⟨whole, more.trans ?_, ?_⟩
      · rw [live]
        exact List.perm_middle
      · have before := accounted.pages_sum
        have now := kept.pages_sum
        rw [live, List.map_cons, List.sum_cons, asked, len] at now
        rw [List.map_cons, List.sum_cons]
        omega

structure Took (start heap : Heap) (blocks : List Block) : Prop where
  accounted : Accounted heap 0
  len : heap.memory.len = start.memory.len
  live : heap.live.Perm (blocks ++ start.live)
  single : ∀ block ∈ blocks, numPages block.bytes = 1

namespace Took

variable {start heap after : Heap} {blocks others : List Block} {block second : Block}
  {bytes data : Nat}

theorem perm (took : Took start heap blocks) (same : blocks.Perm others) :
    Took start heap others :=
  ⟨took.accounted, took.len, took.live.trans (same.append_right _),
    fun block member => took.single block (same.mem_iff.mpr member)⟩

theorem gAlloc (took : Took start heap blocks) (single : numPages bytes = 1)
    (allocated : heap.gAlloc bytes = some (after, block)) : Took start after (block :: blocks) := by
  obtain ⟨accounted, len, live, asked⟩ := gAlloc_taken took.accounted allocated
  refine ⟨accounted, len.trans took.len, ?_, fun other member => ?_⟩
  · rw [live]
    exact took.live.cons _
  · rcases List.mem_cons.mp member with rfl | member
    · rw [asked, single]
    · exact took.single other member

theorem gDealloc (took : Took start heap (block :: blocks)) :
    Took start (heap.gDealloc block) blocks := by
  have member : block ∈ heap.live := took.live.mem_iff.mpr (by simp)
  have listed : heap.live.Perm (block :: heap.live.erase block) := List.perm_cons_erase member
  have rest : (block :: heap.live.erase block).Perm (block :: (blocks ++ start.live)) :=
    listed.symm.trans took.live
  exact ⟨took.accounted.deallocate listed, took.len, rest.cons_inv,
    fun other inside => took.single other (List.mem_cons_of_mem _ inside)⟩

theorem gAllocPair (took : Took start heap blocks) (single : numPages bytes = 1)
    (also : numPages data = 1)
    (allocated : heap.gAllocPair bytes data = some (after, block, second)) :
    Took start after (second :: block :: blocks) := by
  simp only [Heap.gAllocPair, Option.bind_eq_bind, Option.bind_eq_some_iff, Prod.exists,
    Option.some.injEq, Prod.mk.injEq] at allocated
  obtain ⟨_, _, first, _, _, last, rfl, rfl, rfl⟩ := allocated
  exact (took.gAlloc single first).gAlloc also last

theorem gDeallocPair (took : Took start heap (second :: block :: blocks)) :
    Took start (heap.gDeallocPair (block, second)) blocks :=
  took.gDealloc.gDealloc

theorem total (took : Took start heap blocks) :
    heap.memory.freePageNum + blocks.length +
      (start.live.map fun block => numPages block.bytes).sum = start.memory.len := by
  have now := took.accounted.pages_sum
  have ones : (blocks.map fun block => numPages block.bytes).sum = blocks.length := by
    rw [List.map_congr_left took.single]
    simp
  rw [(took.live.map fun block => numPages block.bytes).sum_eq, List.map_append, List.sum_append,
    ones, took.len] at now
  omega

theorem gAlloc_some (took : Took start heap blocks) (bytes : Nat) (single : numPages bytes = 1)
    (asked : 0 < bytes) (room : 1 ≤ heap.memory.freePageNum) :
    ∃ after block, heap.gAlloc bytes = some (after, block) := by
  have most := Accounted.card_le heap.memory
  have count := took.accounted.count
  have len := took.accounted.invariant.len
  have page : bytes < pageSize := by
    simp only [numPages, allocHeaderSize, pageSize] at single ⊢
    omega
  have fits : bytes < heap.memory.size := by
    have inside : 1 * pageSize ≤ heap.memory.size :=
      (Nat.le_div_iff_mul_le (by decide)).mp (by omega)
    omega
  have gaps : (numPages bytes - 1) * (heap.live.length + 1) = 0 := by
    rw [single, Nat.sub_self, Nat.zero_mul]
  obtain ⟨memory, address, returned⟩ := took.accounted.serves asked fits (by omega)
  have served : numPages bytes ≤ heap.memory.freePageNum := by omega
  exact ⟨_, _, by rw [Heap.gAlloc, if_pos served, returned]⟩

theorem gAllocPair_some (took : Took start heap blocks) (bytes data : Nat)
    (single : numPages bytes = 1) (also : numPages data = 1) (asked : 0 < bytes) (askedToo : 0 < data)
    (room : 2 ≤ heap.memory.freePageNum) :
    ∃ after node block, heap.gAllocPair bytes data = some (after, node, block) := by
  obtain ⟨middle, node, first⟩ := took.gAlloc_some bytes single asked (by omega)
  have grown := took.gAlloc single first
  have before := took.total
  have now := grown.total
  rw [List.length_cons] at now
  obtain ⟨after, block, second⟩ := grown.gAlloc_some data also askedToo (by omega)
  exact ⟨after, node, block, by simp only [Heap.gAllocPair, first, second, Option.bind_eq_bind,
    Option.bind_some]⟩

end Took

def sizeofIoBuf : Nat := 4096 + 8 + 8

/-- A name, four addresses, a pointer, two `u32` and two `u16`, with four bytes of padding. -/
def sizeofBtreeConfig : Nat := 1024 + 4 * 4096 + 8 + 2 * 4 + 2 * 2 + 4

def sizeofBTree : Nat := 8 + sizeofBtreeConfig + 16 + 24

/-- The blocks of `alloc_tree_buf`: the tree, two `io_buf` with the heads of their lists, the head of
the queue, and a second head for the list of the index. -/
def allocTreeBuf (heap : Heap) : Option (Heap × List Block) :=
  heap.gAllocAll [sizeofBTree, sizeofIoBuf, listNodeSize, sizeofIoBuf, listNodeSize, queueNodeSize,
    listNodeSize]

theorem allocTreeBuf_taken {heap start : Heap} {own : List Block} (accounted : Accounted heap 0)
    (opened : heap.allocTreeBuf = some (start, own)) :
    Accounted start 0 ∧ start.live.Perm (own ++ heap.live) ∧
      start.memory.freePageNum + 32 = heap.memory.freePageNum :=
  gAllocAll_taken accounted opened

end Heap

/-- What a tree has in the pool: the objects of its nodes, the entries of the cache's queue and of the
free list with their data, and the blocks of which `load_btree_node` has lost the address. -/
structure TreeBlocks where
  heap : Heap
  nodes : List (NodePtr × Block)
  entries : List (Block × Block)
  freeRrn : List (Block × Block)
  lost : List Block

namespace TreeBlocks

/-- The object alone: `alloc_btree_node` takes no blocks for `keys` and `children`. -/
def allocBtreeNode (t : TreeBlocks) (p : NodePtr) : Option TreeBlocks := do
  let (heap, block) ← t.heap.gAlloc sizeofBtreeNode
  some { t with heap := heap, nodes := (p, block) :: t.nodes }

/-- `clear_btree_node`; nothing for a node that is released already. -/
def clearBtreeNode (t : TreeBlocks) (p : NodePtr) : Option TreeBlocks := do
  let node ← t.nodes.find? fun node => node.1 = p
  some { t with heap := t.heap.gDealloc node.2, nodes := t.nodes.erase node }

def pushGq (t : TreeBlocks) : Option TreeBlocks := do
  let (heap, entry) ← t.heap.gAllocPair queueNodeSize sizeofBtreeNode
  some { t with heap := heap, entries := t.entries ++ [entry] }

def popGq (t : TreeBlocks) : TreeBlocks :=
  match t.entries with
  | [] => t
  | entry :: rest => { t with heap := t.heap.gDeallocPair entry, entries := rest }

def cacheNode (t : TreeBlocks) (s : NodeCache) (p : NodePtr) : Option TreeBlocks := do
  let t ← t.pushGq
  if cacheCapacity ≤ s.cacheSize + 1 then t.popGq.clearBtreeNode (s.gq.headD p) else some t

def loadBtreeNode (t : TreeBlocks) (s : NodeCache) (rrn : Rrn) : Option TreeBlocks := do
  let (heap, bn, node) ← t.heap.gAllocPair sizeofBtreeNode queueNodeSize
  match s.searchGq rrn with
  | none => some { t with heap := (heap.gDealloc bn).gDealloc node }
  | some found =>
      -- the search and the line after it overwrite both pointers
      let t := { t with heap := heap, lost := node :: bn :: t.lost }
      if found ≠ nullPtr then some t
      else
        let t ← t.allocBtreeNode s.unused
        match s.index (loadBtreeNodeRegion rrn).offset with
        | none => t.clearBtreeNode s.unused
        | some node => t.cacheNode (s.allocBtreeNode node) s.unused

def writeIndexRecord (t : TreeBlocks) (s : NodeCache) (p : NodePtr) : Option TreeBlocks :=
  if p = nullPtr then some t
  else if s.ioFails s.writes then some t
  else
    match (s.wrote p).searchGq (s.node p).rrn with
    | some _ => some t
    | none => t.cacheNode (s.wrote p) p

def removeLl (t : TreeBlocks) : TreeBlocks :=
  match t.freeRrn with
  | [] => t
  | entry :: rest => { t with heap := t.heap.gDeallocPair entry, freeRrn := rest }

def insertLl (t : TreeBlocks) : Option TreeBlocks := do
  let (heap, entry) ← t.heap.gAllocPair listNodeSize 2
  some { t with heap := heap, freeRrn := entry :: t.freeRrn }

/-- `get_free_rrn`, after the block of the node that gets the number: the source takes this block first,
and `split` gives it back if the number is `(u16)-1`. -/
def getFreeRrn (t : TreeBlocks) (p : NodePtr) (rrn : Rrn) : Option TreeBlocks := do
  let t ← t.allocBtreeNode p
  if rrn = noRrn then t.removeLl.clearBtreeNode p else some t.removeLl

def numberedNode (t : TreeBlocks) (p : NodePtr) : Option TreeBlocks :=
  if (t.nodes.find? fun node => node.1 = p).isSome then some t else t.allocBtreeNode p

def new (heap : Heap) : Nat → Option TreeBlocks
  | 0 => heap.allocTreeBuf.map fun opened =>
      { heap := opened.1, nodes := [], entries := [], freeRrn := [], lost := [] }
  | count + 1 => (new heap count).bind insertLl

end TreeBlocks

/-- The storage with its blocks, as long as the pool has free pages for them and no node is released
twice. -/
def poolPager : Pager (NodeCache × Option TreeBlocks) NodePtr where
  node s := cachePager.node s.1
  setNode s p node := (cachePager.setNode s.1 p node, s.2)
  allocBtreeNode s node :=
    let allocated := cachePager.allocBtreeNode s.1 node
    ((allocated.1, s.2.bind fun t => t.numberedNode allocated.2), allocated.2)
  clearBtreeNode s p :=
    (cachePager.clearBtreeNode s.1 p, s.2.bind fun t => t.clearBtreeNode p)
  cached s := cachePager.cached s.1
  loadBtreeNode held s rrn :=
    let loaded := cachePager.loadBtreeNode held s.1 rrn
    ((loaded.1, s.2.bind fun t => t.loadBtreeNode s.1 rrn), loaded.2)
  writeIndexRecord held s p :=
    let written := cachePager.writeIndexRecord held s.1 p
    ((written.1, s.2.bind fun t => t.writeIndexRecord s.1 p), written.2)
  getFreeRrn s :=
    let taken := cachePager.getFreeRrn s.1
    ((taken.1, s.2.bind fun t => t.getFreeRrn s.1.unused taken.2), taken.2)
  insertFreeRrn s rrn :=
    (cachePager.insertFreeRrn s.1 rrn, s.2.bind TreeBlocks.insertLl)
  writeTombstone s rrn :=
    let marked := cachePager.writeTombstone s.1 rrn
    ((marked.1, s.2), marked.2)

def TreeBlocks.owned (t : TreeBlocks) : List Block :=
  t.nodes.map Prod.snd ++ (t.entries.flatMap fun entry => [entry.1, entry.2]) ++
    (t.freeRrn.flatMap fun entry => [entry.1, entry.2]) ++ t.lost

structure BlocksOf (start : Heap) (s : NodeCache) (loads : Nat) (t : TreeBlocks) : Prop where
  took : Heap.Took start t.heap t.owned
  entries : t.entries.length = s.gq.length
  freeRrn : t.freeRrn.length = s.freeRrn.length
  lost : t.lost.length = 2 * loads

namespace BlocksOf

variable {start : Heap} {s after : NodeCache} {loads : Nat} {t next : TreeBlocks} {p : NodePtr}
  {rrn : Rrn}

theorem congr (blocks : BlocksOf start s loads t) (queue : after.gq.length = s.gq.length)
    (free : after.freeRrn.length = s.freeRrn.length) : BlocksOf start after loads t :=
  ⟨blocks.took, blocks.entries.trans queue.symm, blocks.freeRrn.trans free.symm, blocks.lost⟩

theorem allocBtreeNode (blocks : BlocksOf start s loads t)
    (allocated : t.allocBtreeNode p = some next) : BlocksOf start s loads next := by
  simp only [TreeBlocks.allocBtreeNode, Option.bind_eq_bind, Option.bind_eq_some_iff, Prod.exists,
    Option.some.injEq] at allocated
  obtain ⟨heap, block, allocated, rfl⟩ := allocated
  exact ⟨blocks.took.gAlloc rfl allocated, blocks.entries, blocks.freeRrn, blocks.lost⟩

theorem clearBtreeNode (blocks : BlocksOf start s loads t)
    (cleared : t.clearBtreeNode p = some next) : BlocksOf start s loads next := by
  simp only [TreeBlocks.clearBtreeNode, Option.bind_eq_bind, Option.bind_eq_some_iff,
    Option.some.injEq] at cleared
  obtain ⟨node, found, rfl⟩ := cleared
  have listed := List.perm_cons_erase (List.mem_of_find?_eq_some found)
  refine ⟨(blocks.took.perm ?_).gDealloc, blocks.entries, blocks.freeRrn, blocks.lost⟩
  simp only [TreeBlocks.owned, List.append_assoc]
  exact (listed.map Prod.snd).append_right _

theorem pushGq (blocks : BlocksOf start s loads t) (pushed : t.pushGq = some next)
    (queue : after.gq.length = s.gq.length + 1)
    (free : after.freeRrn.length = s.freeRrn.length) : BlocksOf start after loads next := by
  simp only [TreeBlocks.pushGq, Option.bind_eq_bind, Option.bind_eq_some_iff, Prod.exists,
    Option.some.injEq] at pushed
  obtain ⟨heap, node, data, allocated, rfl⟩ := pushed
  have took := blocks.took.gAllocPair rfl rfl allocated
  refine ⟨took.perm ?_, ?_, blocks.freeRrn.trans free.symm, blocks.lost⟩
  · refine List.perm_iff_count.mpr fun block => ?_
    simp only [TreeBlocks.owned, List.count_append, List.count_cons, List.flatMap_append,
      List.flatMap_cons, List.flatMap_nil, List.append_nil, List.count_nil]
    omega
  · rw [List.length_append, blocks.entries, List.length_singleton, queue]

theorem popGq (blocks : BlocksOf start s loads t) (queue : after.gq = s.gq.tail)
    (free : after.freeRrn = s.freeRrn) : BlocksOf start after loads t.popGq := by
  rw [TreeBlocks.popGq]
  have length := blocks.entries
  split
  · rename_i empty
    rw [empty, List.length_nil] at length
    exact blocks.congr (by rw [queue, List.length_tail]; omega) (by rw [free])
  · rename_i node rest entries
    rw [entries, List.length_cons] at length
    refine ⟨Heap.Took.gDeallocPair (blocks.took.perm ?_), ?_, by rw [free]; exact blocks.freeRrn,
      blocks.lost⟩
    · refine List.perm_iff_count.mpr fun block => ?_
      simp only [TreeBlocks.owned, entries, List.count_append, List.count_cons, List.flatMap_cons,
        List.count_nil]
      omega
    · rw [queue, List.length_tail]
      dsimp only
      omega

theorem cacheNode (blocks : BlocksOf start s loads t) (held : List NodePtr)
    (cached : t.cacheNode s p = some next) :
    BlocksOf start (NodeCache.pushGq held s p) loads next := by
  obtain ⟨middle, pushed, cached⟩ := Option.bind_eq_some_iff.mp cached
  have grown := @pushGq start s { s with gq := s.gq ++ [p], cacheSize := s.cacheSize + 1 } loads t
    middle blocks pushed (by simp) rfl
  rw [NodeCache.pushGq]
  dsimp only
  split_ifs at cached ⊢ with full
  · have popped := @popGq start _ (NodeCache.evict held
      { s with gq := s.gq ++ [p], cacheSize := s.cacheSize + 1 }) loads middle grown ?_ ?_
    · exact popped.clearBtreeNode cached
    · rw [NodeCache.evict]
      split
      · rename_i empty
        exact absurd empty (by simp)
      · rename_i queue
        exact (congrArg List.tail queue).symm
    · rw [NodeCache.evict]
      split <;> rfl
  · obtain rfl := Option.some.inj cached
    exact grown

theorem loadBtreeNode (blocks : BlocksOf start s loads t) (held : List NodePtr)
    (notNull : ∀ found ∈ s.searchGq rrn, found ≠ nullPtr)
    (loaded : t.loadBtreeNode s rrn = some next) :
    BlocksOf start (s.loadBtreeNode held rrn).1
      (if (s.loadBtreeNode held rrn).2.isSome then loads + 1 else loads) next := by
  simp only [TreeBlocks.loadBtreeNode, Option.bind_eq_bind, Option.bind_eq_some_iff,
    Prod.exists] at loaded
  obtain ⟨heap, bn, node, allocated, loaded⟩ := loaded
  have took := blocks.took.gAllocPair rfl rfl allocated
  cases search : s.searchGq rrn with
  | none =>
      rw [search] at loaded
      obtain rfl := Option.some.inj loaded
      rw [NodeCache.loadBtreeNode, search]
      exact ⟨(took.perm (.swap ..)).gDealloc.gDealloc, blocks.entries, blocks.freeRrn, blocks.lost⟩
  | some found =>
      have real := notNull found search
      rw [search] at loaded
      dsimp only at loaded
      rw [if_pos real] at loaded
      obtain rfl := Option.some.inj loaded
      have returned : s.loadBtreeNode held rrn = (s, some found) := loadBtreeNode_found search real
      rw [returned]
      refine ⟨took.perm ?_, blocks.entries, blocks.freeRrn, ?_⟩
      · refine List.perm_iff_count.mpr fun block => ?_
        simp only [TreeBlocks.owned, List.count_append, List.count_cons]
        omega
      · rw [Option.isSome_some, if_pos rfl]
        simp only [List.length_cons, blocks.lost]
        omega

theorem writeIndexRecord (blocks : BlocksOf start s loads t) (held : List NodePtr)
    (written : t.writeIndexRecord s p = some next) :
    BlocksOf start (s.writeIndexRecord held p).1 loads next := by
  rw [TreeBlocks.writeIndexRecord] at written
  rw [NodeCache.writeIndexRecord]
  split_ifs at written ⊢
  · obtain rfl := Option.some.inj written
    exact blocks
  · obtain rfl := Option.some.inj written
    exact blocks.congr rfl rfl
  · cases search : (s.wrote p).searchGq (s.node p).rrn with
    | some found =>
        rw [search] at written
        obtain rfl := Option.some.inj written
        exact blocks.congr rfl rfl
    | none =>
        rw [search] at written
        have kept : BlocksOf start (s.wrote p) loads t := blocks.congr rfl rfl
        exact kept.cacheNode held written

theorem removeLl (blocks : BlocksOf start s loads t) :
    BlocksOf start (cachePager.getFreeRrn s).1 loads t.removeLl := by
  have length := blocks.freeRrn
  have rest : (cachePager.getFreeRrn s).1.freeRrn = s.freeRrn.tail := by
    change (getFreeRrn s.freeRrn).2 = s.freeRrn.tail
    cases s.freeRrn <;> rfl
  rw [TreeBlocks.removeLl]
  split
  · rename_i empty
    rw [empty, List.length_nil] at length
    exact blocks.congr rfl (by rw [rest, List.length_tail]; omega)
  · rename_i entry others freeRrn
    rw [freeRrn, List.length_cons] at length
    refine ⟨Heap.Took.gDeallocPair (blocks.took.perm ?_), blocks.entries, ?_, blocks.lost⟩
    · refine List.perm_iff_count.mpr fun block => ?_
      simp only [TreeBlocks.owned, freeRrn, List.count_append, List.count_cons, List.flatMap_cons,
        List.count_nil]
      omega
    · rw [rest, List.length_tail]
      dsimp only
      omega

theorem numberedNode (blocks : BlocksOf start s loads t) (made : t.numberedNode p = some next) :
    BlocksOf start s loads next := by
  rw [TreeBlocks.numberedNode] at made
  split_ifs at made
  · obtain rfl := Option.some.inj made
    exact blocks
  · exact blocks.allocBtreeNode made

theorem getFreeRrn (blocks : BlocksOf start s loads t) (taken : t.getFreeRrn p rrn = some next) :
    BlocksOf start (cachePager.getFreeRrn s).1 loads next := by
  obtain ⟨made, allocated, taken⟩ := Option.bind_eq_some_iff.mp taken
  have removed := (blocks.allocBtreeNode allocated).removeLl
  split_ifs at taken
  · exact removed.clearBtreeNode taken
  · obtain rfl := Option.some.inj taken
    exact removed

theorem insertLl (blocks : BlocksOf start s loads t) (rrn : Rrn) (inserted : t.insertLl = some next) :
    BlocksOf start (cachePager.insertFreeRrn s rrn) loads next := by
  simp only [TreeBlocks.insertLl, Option.bind_eq_bind, Option.bind_eq_some_iff, Prod.exists,
    Option.some.injEq] at inserted
  obtain ⟨heap, node, data, allocated, rfl⟩ := inserted
  have took := blocks.took.gAllocPair rfl rfl allocated
  refine ⟨took.perm ?_, blocks.entries, ?_, blocks.lost⟩
  · refine List.perm_iff_count.mpr fun block => ?_
    simp only [TreeBlocks.owned, List.count_append, List.count_cons, List.flatMap_cons,
      List.count_nil]
    omega
  · have longer : (cachePager.insertFreeRrn s rrn).freeRrn = rrn :: s.freeRrn := rfl
    rw [longer, List.length_cons, List.length_cons, blocks.freeRrn]

theorem pages (blocks : BlocksOf start s loads t) (accounted : Accounted start 0) :
    t.heap.memory.freePageNum + t.nodes.length + 2 * s.gq.length + 2 * s.freeRrn.length + 2 * loads =
      start.memory.freePageNum := by
  have missing := blocks.took.total
  have whole := accounted.pages_sum
  have pairs : ∀ entries : List (Block × Block),
      (entries.flatMap fun entry => [entry.1, entry.2]).length = 2 * entries.length := by
    intro entries
    simp [List.length_flatMap, Nat.mul_comm]
  simp only [TreeBlocks.owned, List.length_append, List.length_map, pairs, blocks.entries,
    blocks.freeRrn, blocks.lost] at missing
  omega

theorem new {heap : Heap} {own : List Block} (accounted : Accounted heap 0)
    (opened : heap.allocTreeBuf = some (start, own)) (config : BtreeConfig) (free : List Rrn)
    (ioFails : Nat → Bool) (made : TreeBlocks.new heap free.length = some t) :
    BlocksOf start (initCache config free ioFails) 0 t := by
  induction free generalizing t with
  | nil =>
      rw [List.length_nil, TreeBlocks.new, opened] at made
      obtain rfl := Option.some.inj made
      have taken := (Heap.allocTreeBuf_taken accounted opened).1
      exact ⟨⟨taken, rfl, .refl _, by simp [TreeBlocks.owned]⟩, rfl, rfl, rfl⟩
  | cons rrn rest ih =>
      obtain ⟨before, made, inserted⟩ := Option.bind_eq_some_iff.mp made
      exact (ih made).insertLl rrn inserted

end BlocksOf

structure RealPointers (s : NodeCache) : Prop where
  above : nullPtr < s.unused
  queue : ∀ p ∈ s.gq, p ≠ nullPtr

theorem RealPointers.pushGq {s : NodeCache} {p : NodePtr} (pointers : RealPointers s)
    (held : List NodePtr) (notNull : p ≠ nullPtr) : RealPointers (NodeCache.pushGq held s p) := by
  refine ⟨by rw [unused_pushGq]; exact pointers.above, ?_⟩
  have grown : ∀ q ∈ s.gq ++ [p], q ≠ nullPtr := by
    intro q member
    rcases List.mem_append.mp member with old | new
    · exact pointers.queue q old
    · exact List.mem_singleton.mp new ▸ notNull
  intro q member
  rw [NodeCache.pushGq] at member
  dsimp only at member
  split_ifs at member
  · rw [NodeCache.evict] at member
    split at member
    · exact grown q member
    · rename_i old rest queue
      have inside : q ∈ s.gq ++ [p] := by
        rw [show s.gq ++ [p] = old :: rest from queue]
        exact List.mem_cons_of_mem _ member
      exact grown q inside
  · exact grown q member

theorem cachePager_realPointers : cachePager.Keeps none (fun _ => True) RealPointers where
  keys _ _ _ _ := trivial
  setNode pointers _ _ := ⟨pointers.above, pointers.queue⟩
  halves pointers _ _ _ := ⟨Nat.lt_succ_of_lt pointers.above, pointers.queue⟩
  allocBtreeNode pointers _ := ⟨Nat.lt_succ_of_lt pointers.above, pointers.queue⟩
  allocated _ _ := by simp
  clearBtreeNode _ pointers _ := ⟨pointers.above, pointers.queue⟩
  loadBtreeNode wanted pointers _ := by
    simp only [cachePager, NodeCache.loadBtreeNode]
    split
    · exact pointers
    · rename_i found search
      rw [if_pos (pointers.queue found (NodeCache.searchGq_some search).1)]
      exact pointers
  writeIndexRecord p pointers _ := by
    simp only [cachePager, NodeCache.writeIndexRecord]
    split_ifs with null
    · exact pointers
    · exact ⟨pointers.above, pointers.queue⟩
    · split
      · exact ⟨pointers.above, pointers.queue⟩
      · have wrote : RealPointers (NodeCache.wrote _ p) := ⟨pointers.above, pointers.queue⟩
        exact wrote.pushGq _ null
  getFreeRrn pointers := ⟨pointers.above, pointers.queue⟩
  insertFreeRrn _ pointers := ⟨pointers.above, pointers.queue⟩
  writeTombstone _ pointers := ⟨pointers.above, pointers.queue⟩

structure InPool (start : Heap) (s : (NodeCache × Option TreeBlocks) × Nat) : Prop where
  pointers : RealPointers s.1.1
  blocks : ∀ t ∈ s.1.2, BlocksOf start s.1.1 s.2 t

theorem poolPager_keeps (start : Heap) :
    (counted poolPager).Keeps none (fun _ => True) (InPool start) where
  keys _ _ _ _ := trivial
  setNode held name _ :=
    ⟨cachePager_realPointers.setNode held.pointers name fun _ _ => trivial,
      fun t here => (held.blocks t here).congr rfl rfl⟩
  halves held name _ _ := by
    refine ⟨cachePager_realPointers.halves held.pointers name (fun _ _ => trivial)
      fun _ _ => trivial, fun next here => ?_⟩
    obtain ⟨t, before, made⟩ := Option.bind_eq_some_iff.mp here
    exact ((held.blocks t before).numberedNode made).congr rfl rfl
  allocBtreeNode held _ := by
    refine ⟨cachePager_realPointers.allocBtreeNode held.pointers fun _ _ => trivial,
      fun next here => ?_⟩
    obtain ⟨t, before, made⟩ := Option.bind_eq_some_iff.mp here
    exact ((held.blocks t before).numberedNode made).congr rfl rfl
  allocated _ _ := by simp
  clearBtreeNode p held other := by
    refine ⟨cachePager_realPointers.clearBtreeNode p held.pointers other, fun next here => ?_⟩
    obtain ⟨t, before, cleared⟩ := Option.bind_eq_some_iff.mp here
    exact ((held.blocks t before).clearBtreeNode cleared).congr rfl rfl
  loadBtreeNode wanted held inUse := by
    refine ⟨cachePager_realPointers.loadBtreeNode wanted held.pointers inUse, fun next here => ?_⟩
    obtain ⟨t, before, loaded⟩ := Option.bind_eq_some_iff.mp here
    refine (held.blocks t before).loadBtreeNode _ (fun found search => ?_) loaded
    exact held.pointers.queue found (NodeCache.searchGq_some search).1
  writeIndexRecord p held inUse := by
    refine ⟨cachePager_realPointers.writeIndexRecord p held.pointers inUse, fun next here => ?_⟩
    obtain ⟨t, before, written⟩ := Option.bind_eq_some_iff.mp here
    exact (held.blocks t before).writeIndexRecord _ written
  getFreeRrn held := by
    refine ⟨cachePager_realPointers.getFreeRrn held.pointers, fun next here => ?_⟩
    obtain ⟨t, before, taken⟩ := Option.bind_eq_some_iff.mp here
    exact (held.blocks t before).getFreeRrn taken
  insertFreeRrn rrn held := by
    refine ⟨cachePager_realPointers.insertFreeRrn rrn held.pointers, fun next here => ?_⟩
    obtain ⟨t, before, inserted⟩ := Option.bind_eq_some_iff.mp here
    exact (held.blocks t before).insertLl rrn inserted
  writeTombstone rrn held :=
    ⟨cachePager_realPointers.writeTombstone rrn held.pointers,
      fun t here => (held.blocks t here).congr rfl rfl⟩

end Gaveta
