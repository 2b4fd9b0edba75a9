import Gaveta.BTree.FileLayout
import Mathlib.Logic.Function.Basic

/-!
The storage of `BTree.c` with its cache: a queue of node pointers, oldest first, of which a full
cache releases the oldest.
-/

namespace Gaveta

/-- The address of a node object; `NULL` is 0. -/
abbrev NodePtr := Nat

def nullPtr : NodePtr := 0

def cacheCapacity : Nat := 128

structure NodeCache where
  memory : NodePtr → Option BtreeNode
  /-- No object was ever allocated from this address on. -/
  unused : NodePtr
  gq : List NodePtr
  cacheSize : Nat
  config : BtreeConfig
  index : Int → Option BtreeNode
  freeRrn : List Rrn
  /-- The record numbers that `get_free_rrn` has handed out, oldest first. -/
  created : List Rrn
  /-- Which calls of `write_index_record` fail, by the number of calls before them. -/
  ioFails : Nat → Bool
  writes : Nat
  tombstones : List Rrn
  /-- The nodes that an eviction has released while a call still used them. -/
  usedReleased : List NodePtr

namespace NodeCache

def node (s : NodeCache) (p : NodePtr) : BtreeNode :=
  (s.memory p).getD { keys := [], rrn := noRrn, children := [], nextLeaf := noRrn, leaf := true }

@[simps] def setNode (s : NodeCache) (p : NodePtr) (node : BtreeNode) : NodeCache :=
  { s with memory := Function.update s.memory p (some node) }

@[simps] def allocBtreeNode (s : NodeCache) (node : BtreeNode) : NodeCache :=
  { s with memory := Function.update s.memory s.unused (some node), unused := s.unused + 1 }

@[simps] def clearBtreeNode (s : NodeCache) (p : NodePtr) : NodeCache :=
  { s with memory := Function.update s.memory p none }

section Memory

variable (s : NodeCache) (p other : NodePtr) (content : BtreeNode)

@[simp] theorem node_setNode :
    (s.setNode p content).node other = if other = p then content else s.node other := by
  by_cases same : other = p
  · simp [node, same]
  · simp [node, same]

@[simp] theorem node_allocBtreeNode :
    (s.allocBtreeNode content).node other =
      if other = s.unused then content else s.node other := by
  by_cases same : other = s.unused
  · simp [node, same]
  · simp [node, same]

theorem node_clearBtreeNode (different : other ≠ p) :
    (s.clearBtreeNode p).node other = s.node other := by
  simp [node, different]

end Memory

/-- `search_gq` with `compare_btree_nodes` -/
def searchGq (s : NodeCache) (rrn : Rrn) : Option NodePtr :=
  s.gq.find? fun p => (s.node p).rrn = rrn

theorem searchGq_eq_none_iff {s : NodeCache} {rrn : Rrn} :
    s.searchGq rrn = none ↔ ∀ p ∈ s.gq, (s.node p).rrn ≠ rrn := by
  simp [searchGq]

theorem searchGq_some {s : NodeCache} {rrn : Rrn} {p : NodePtr} (found : s.searchGq rrn = some p) :
    p ∈ s.gq ∧ (s.node p).rrn = rrn :=
  ⟨List.mem_of_find?_eq_some found, by simpa using List.find?_some found⟩

theorem searchGq_isSome {s : NodeCache} {p : NodePtr} (member : p ∈ s.gq) :
    (s.searchGq (s.node p).rrn).isSome := by
  rw [Option.isSome_iff_ne_none, ne_eq, searchGq_eq_none_iff]
  exact fun absent => absent p member rfl

def evict (held : List NodePtr) (s : NodeCache) : NodeCache :=
  match s.gq with
  | [] => { s with cacheSize := s.cacheSize - 1 }
  | old :: rest =>
      { s.clearBtreeNode old with
        gq := rest
        cacheSize := s.cacheSize - 1
        usedReleased := if old ∈ held then s.usedReleased ++ [old] else s.usedReleased }

/-- `push_gq` and the eviction after it. -/
def pushGq (held : List NodePtr) (s : NodeCache) (p : NodePtr) : NodeCache :=
  let s := { s with gq := s.gq ++ [p], cacheSize := s.cacheSize + 1 }
  if cacheCapacity ≤ s.cacheSize then evict held s else s

theorem pushGq_room {held : List NodePtr} {s : NodeCache} {p : NodePtr}
    (room : s.cacheSize + 1 < cacheCapacity) :
    pushGq held s p = { s with gq := s.gq ++ [p], cacheSize := s.cacheSize + 1 } := by
  rw [pushGq, if_neg (not_le.mpr room)]

theorem pushGq_full {held : List NodePtr} {s : NodeCache} {p old : NodePtr} {rest : List NodePtr}
    (full : cacheCapacity ≤ s.cacheSize + 1) (oldest : s.gq = old :: rest) :
    pushGq held s p =
      { s.clearBtreeNode old with
        gq := rest ++ [p]
        usedReleased := if old ∈ held then s.usedReleased ++ [old] else s.usedReleased } := by
  simp only [pushGq, full, ↓reduceIte, evict, oldest, List.cons_append, Nat.add_sub_cancel]
  rfl

def loadBtreeNode (held : List NodePtr) (s : NodeCache) (rrn : Rrn) :
    NodeCache × Option NodePtr :=
  match s.searchGq rrn with
  | none => (s, none)
  | some bn =>
      if bn ≠ nullPtr then (s, some bn)
      else
        match s.index (loadBtreeNodeRegion rrn).offset with
        | none => (s, none)
        | some node => (pushGq held (s.allocBtreeNode node) s.unused, some s.unused)

@[simps] def wrote (s : NodeCache) (p : NodePtr) : NodeCache :=
  { s with
    writes := s.writes + 1
    index := Function.update s.index (writeIndexRecordRegion s.config (s.node p).rrn).offset
      (some (s.node p)) }

def writeIndexRecord (held : List NodePtr) (s : NodeCache) (p : NodePtr) :
    NodeCache × BtreeStatus :=
  if p = nullPtr then (s, .errorIo)
  else if s.ioFails s.writes then ({ s with writes := s.writes + 1 }, .errorIo)
  else
    match (s.wrote p).searchGq (s.node p).rrn with
    | some _ => (s.wrote p, .success)
    | none => (pushGq held (s.wrote p) p, .success)

@[simp] theorem node_wrote (s : NodeCache) (p : NodePtr) : (s.wrote p).node = s.node := rfl

@[simp] theorem searchGq_wrote (s : NodeCache) (p : NodePtr) :
    (s.wrote p).searchGq = s.searchGq := rfl

end NodeCache

def initCache (config : BtreeConfig) (free : List Rrn) (ioFails : Nat → Bool) : NodeCache :=
  { memory := fun _ => none, unused := 1, gq := [], cacheSize := 0, config := config,
    index := fun _ => none, freeRrn := free, created := [], ioFails := ioFails, writes := 0,
    tombstones := [], usedReleased := [] }

def cachePager : Pager NodeCache NodePtr where
  node := NodeCache.node
  setNode := NodeCache.setNode
  allocBtreeNode s node := (s.allocBtreeNode node, s.unused)
  clearBtreeNode := NodeCache.clearBtreeNode
  cached s p := (s.searchGq (s.node p).rrn).isSome
  loadBtreeNode := NodeCache.loadBtreeNode
  writeIndexRecord := NodeCache.writeIndexRecord
  getFreeRrn s :=
    ({ s with
      freeRrn := (getFreeRrn s.freeRrn).2
      created := s.created ++ [(getFreeRrn s.freeRrn).1] }, (getFreeRrn s.freeRrn).1)
  insertFreeRrn s rrn := { s with freeRrn := rrn :: s.freeRrn }
  writeTombstone s rrn := ({ s with tombstones := rrn :: s.tombstones }, true)

end Gaveta
