import Gaveta.BTree.Pager
import Gaveta.Structures.HashTableKeys
import Gaveta.Structures.PooledArena

/-! A linked list as a stack, and what it takes from the pool. -/

namespace Gaveta

namespace Arena

def isLlEmpty (arena : Arena) (ll : ListPtr) : Option Bool := do
  let sentinel ← arena.loadNode ll
  some sentinel.next.isNone

/-- `remove_ll` with a place to save the data to: the heap, what it returns and what it has saved. -/
def removeLlTo (arena : Arena) (ll : ListPtr) : Option (Arena × Bool × Option (List UInt8)) := do
  if ← arena.isLlEmpty ll then some (arena, false, none)
  else
    let sentinel ← arena.loadNode ll
    let removed ← sentinel.next
    let node ← arena.loadNode (.block removed)
    let data ← node.data
    let content ← arena.loadBytes data node.dataSize
    let after ← arena.removeLl ll
    some (after, true, some content)

def rrnBytes (rrn : Rrn) : List UInt8 := [UInt8.ofNat rrn.toNat, UInt8.ofNat (rrn.toNat / 256)]

/-- The `u16` of two bytes, the low one first. -/
def bytesRrn : List UInt8 → Option Rrn
  | [low, high] => some (UInt16.ofNat (low.toNat + 256 * high.toNat))
  | _ => none

def takeFreeRrn (arena : Arena) (i : ListPtr) : Option (Arena × Rrn) := do
  if ← arena.isLlEmpty i then
    let size ← arena.getLlSize (some i)
    some (arena, size.toUInt16)
  else
    let (after, _, saved) ← arena.removeLlTo i
    let rrn ← saved.bind bytesRrn
    some (after, rrn)

theorem bytesRrn_rrnBytes (rrn : Rrn) : bytesRrn (rrnBytes rrn) = some rrn := by
  have bound := rrn.toNat_lt
  rw [rrnBytes, bytesRrn, Option.some.injEq, ← UInt16.toNat_inj]
  simp only [UInt8.toNat_ofNat', UInt16.toNat_ofNat']
  omega

end Arena

structure ListEntry where
  node : Nat
  data : Nat
  content : List UInt8

inductive EntryChain (arena : Arena) (size : Nat) : Option Nat → List ListEntry → Prop
  | nil : EntryChain arena size none []
  | cons {entry : ListEntry} {next : Option Nat} {rest : List ListEntry}
      (node : arena.Holds entry.node
        (.node { data := some entry.data, dataSize := size, next := next }))
      (content : arena.Holds entry.data (.bytes entry.content)) (width : entry.content.length = size)
      (tail : EntryChain arena size next rest) :
      EntryChain arena size (some entry.node) (entry :: rest)

/-- The runs of a list in which the pool has a free page for each page that is asked for; without
insertions of `NULL`, which fail and lose a node. -/
inductive ListRun (start : Arena) (size ll : Nat) : Arena → List (List UInt8) → Prop
  | init {arena : Arena} (room : numPages listNodeSize ≤ start.memory.freePageNum)
      (made : start.initLl size = some (arena, ll)) : ListRun start size ll arena []
  | insert {arena after : Arena} {values : List (List UInt8)} {data : Nat → UInt8} {ok : Bool}
      (before : ListRun start size ll arena values)
      (room : numPages listNodeSize + numPages size ≤ arena.memory.freePageNum)
      (inserted : arena.insertLl (.block ll) (some (.bytes data)) = some (after, ok)) :
      ListRun start size ll after (copied size data :: values)
  | remove {arena after : Arena} {values : List (List UInt8)} {ok : Bool}
      {saved : Option (List UInt8)} (before : ListRun start size ll arena values)
      (removed : arena.removeLlTo (.block ll) = some (after, ok, saved)) :
      ListRun start size ll after values.tail

def listBlocks (ll : Nat) (entries : List ListEntry) : List Nat :=
  ll :: entries.flatMap fun entry => [entry.node, entry.data]

structure OwnedList (start arena : Arena) (ll size : Nat) (entries : List ListEntry) : Prop where
  sentinel : ∃ next, arena.Holds ll (.node { data := none, dataSize := size, next := next }) ∧
    EntryChain arena size next entries
  owns : Arena.Owns start arena (listBlocks ll entries)

namespace EntryChain

open Arena

variable {arena after : Arena} {size place : Nat} {next : Option Nat} {entries : List ListEntry}

theorem grow (chain : EntryChain arena size next entries) (grows : Extends arena after) :
    EntryChain after size next entries := by
  induction chain with
  | nil => exact .nil
  | cons node content width _ ih => exact .cons (node.grow grows) (content.grow grows) width ih

theorem store (chain : EntryChain arena size next entries)
    (other : place ∉ entries.flatMap fun entry => [entry.node, entry.data]) (cell : Cell) :
    EntryChain (arena.store place cell) size next entries := by
  induction chain with
  | nil => exact .nil
  | cons node content width _ ih =>
      simp only [List.flatMap_cons, List.mem_append, List.mem_cons, List.not_mem_nil, or_false,
        not_or] at other
      exact .cons (node.store_of_ne _ (Ne.symm other.1.1)) (content.store_of_ne _ (Ne.symm other.1.2))
        width (ih other.2)

theorem gDealloc (chain : EntryChain arena size next entries)
    (other : place ∉ entries.flatMap fun entry => [entry.node, entry.data]) :
    EntryChain (arena.gDealloc place) size next entries := by
  induction chain with
  | nil => exact .nil
  | cons node content width _ ih =>
      simp only [List.flatMap_cons, List.mem_append, List.mem_cons, List.not_mem_nil, or_false,
        not_or] at other
      exact .cons (node.gDealloc (Ne.symm other.1.1)) (content.gDealloc (Ne.symm other.1.2)) width
        (ih other.2)

theorem head_eq (chain : EntryChain arena size next entries) :
    next = (entries.map ListEntry.node).head? := by
  cases chain <;> rfl

end EntryChain

namespace OwnedList

open Arena

variable {start arena after : Arena} {ll size : Nat} {entries : List ListEntry} {entry : ListEntry}

theorem init (pooled : start.Pooled) (room : numPages listNodeSize ≤ start.memory.freePageNum)
    (made : start.initLl size = some (arena, ll)) : OwnedList start arena ll size [] := by
  refine ⟨⟨none, (initLl_spec made).2, .nil⟩, ?_⟩
  simp only [initLl, createLlNode, Option.bind_eq_bind, Option.bind_eq_some_iff, Prod.exists,
    Option.some.injEq, Prod.mk.injEq] at made
  obtain ⟨first, address, allocated, rfl, rfl⟩ := made
  exact ((Owns.refl pooled).gAlloc room allocated).1.store _ _

theorem isLlEmpty_eq (list : OwnedList start arena ll size entries) :
    arena.isLlEmpty (.block ll) = some entries.isEmpty := by
  obtain ⟨next, atSentinel, chain⟩ := list.sentinel
  rw [isLlEmpty, loadNode_block atSentinel]
  cases chain <;> rfl

theorem node_owns {own : List Nat} {source : DataPtr} {node : Nat} (owns : Owns start arena own)
    (room : numPages listNodeSize + numPages size ≤ arena.memory.freePageNum)
    (created : arena.createLlNode (some source) size = some (after, node)) :
    ∃ copy, Owns start after (copy :: node :: own) := by
  simp only [createLlNode, Option.bind_eq_bind, Option.bind_eq_some_iff, Prod.exists,
    Option.some.injEq, Prod.mk.injEq] at created
  obtain ⟨first, address, allocated, second, copy, atCopy, cell, _, rfl, rfl⟩ := created
  obtain ⟨outer, left⟩ := owns.gAlloc (by omega) allocated
  obtain ⟨inner, _⟩ := outer.gAlloc (by omega) atCopy
  exact ⟨copy, (inner.store _ _).store _ _⟩

theorem insert (list : OwnedList start arena ll size entries) {data : Nat → UInt8} {ok : Bool}
    (room : numPages listNodeSize + numPages size ≤ arena.memory.freePageNum)
    (inserted : arena.insertLl (.block ll) (some (.bytes data)) = some (after, ok)) :
    ok = true ∧ ∃ entry, entry.content = copied size data ∧
      OwnedList start after ll size (entry :: entries) := by
  obtain ⟨next, atSentinel, chain⟩ := list.sentinel
  simp only [insertLl, loadNode_block atSentinel, Option.bind_eq_bind, Option.bind_some,
    Option.bind_eq_some_iff, Prod.exists] at inserted
  obtain ⟨middle, node, create, created, loaded, inserted⟩ := inserted
  have made := createLlNode_spec (copies_bytes _ _ _) create
  obtain ⟨copy, copyNe, copyFresh, atNode, atCopy⟩ := made.node
  have grown := atSentinel.grow made.grows
  rw [loadNode_block atNode] at loaded
  obtain rfl := Option.some.inj loaded
  simp only [Option.isNone_some, Bool.false_eq_true, ↓reduceIte, loadNode_block grown,
    Option.bind_some, Option.some.injEq, Prod.mk.injEq] at inserted
  obtain ⟨rfl, rfl⟩ := inserted
  obtain ⟨copy', owns⟩ := node_owns list.owns room create
  have pair := list.owns.perm_pair owns made.fresh copyFresh atNode.1 atCopy.1 copyNe
  have listed := owns.perm pair
  have distinct := listed.nodup
  simp only [listBlocks, List.cons_append, List.nil_append, List.nodup_cons, List.mem_cons,
    not_or] at distinct
  obtain ⟨⟨_, nodeSentinel, nodeNew⟩, ⟨copySentinel, _⟩, sentinelNew, _⟩ := distinct
  refine ⟨rfl, ⟨node, copy, copied size data⟩, rfl, ⟨some node, ?_,
    @EntryChain.cons _ _ ⟨node, copy, copied size data⟩ next entries ?_ ?_ ?_ ?_⟩, ?_⟩
  · exact Holds.store_self grown.1
  · exact (Holds.store_self atNode.1).store_of_ne _ nodeSentinel
  · exact (atCopy.store_of_ne _ copyNe).store_of_ne _ copySentinel
  · exact length_copied size data
  · exact ((chain.grow made.grows).store nodeNew _).store sentinelNew _
  · refine ((listed.store _ _).store _ _).perm ?_
    rw [listBlocks, listBlocks, List.flatMap_cons]
    exact @List.perm_middle _ ll [node, copy] _

theorem removeLlTo_empty (list : OwnedList start arena ll size []) :
    arena.removeLlTo (.block ll) = some (arena, false, none) := by
  simp only [removeLlTo, list.isLlEmpty_eq, List.isEmpty_nil, Option.bind_eq_bind, Option.bind_some,
    ↓reduceIte]

theorem removeLl (list : OwnedList start arena ll size (entry :: entries)) :
    ∃ after, arena.removeLl (.block ll) = some after ∧
      OwnedList start after ll size entries := by
  obtain ⟨next, atSentinel, chain⟩ := list.sentinel
  have distinct := list.owns.nodup
  simp only [listBlocks, List.flatMap_cons, List.cons_append, List.nil_append, List.nodup_cons,
    List.mem_cons, not_or] at distinct
  obtain ⟨⟨sentinelNode, sentinelData, sentinelOther⟩, ⟨nodeData, nodeOther⟩, dataOther, _⟩ := distinct
  cases chain with
  | @cons _ link _ node content _ tail =>
      have removes : arena.removeLl (.block ll) =
          some (((arena.store ll (.node { data := none, dataSize := size, next := link })).gDealloc
            entry.data).gDealloc entry.node) := by
        simp only [Arena.removeLl, loadNode_block atSentinel, loadNode_block node,
          Option.bind_eq_bind, Option.bind_some, storeNode]
      refine ⟨_, removes, ⟨link, ?_, ?_⟩, ?_⟩
      · exact ((Holds.store_self atSentinel.1).gDealloc sentinelData).gDealloc sentinelNode
      · exact ((tail.store sentinelOther _).gDealloc dataOther).gDealloc nodeOther
      · have listed : (listBlocks ll (entry :: entries)).Perm
            (entry.data :: entry.node :: listBlocks ll entries) := by
          rw [listBlocks, listBlocks, List.flatMap_cons]
          exact (@List.perm_middle _ ll [entry.node, entry.data] _).symm.trans (.swap ..)
        exact (((list.owns.store _ _).perm listed).gDealloc).gDealloc

theorem removeLlTo_first (list : OwnedList start arena ll size (entry :: entries)) :
    ∃ after, arena.removeLlTo (.block ll) = some (after, true, some entry.content) ∧
      OwnedList start after ll size entries := by
  obtain ⟨after, removes, rest⟩ := list.removeLl
  refine ⟨after, ?_, rest⟩
  obtain ⟨next, atSentinel, chain⟩ := list.sentinel
  cases chain with
  | cons node content width tail =>
      have read := width ▸ loadBytes_holds content
      simp only [removeLlTo, list.isLlEmpty_eq, List.isEmpty_cons, loadNode_block atSentinel,
        loadNode_block node, removes, read, Option.bind_eq_bind, Option.bind_some,
        Bool.false_eq_true, ↓reduceIte]

theorem removeAll_spec {fuel : Nat} (list : OwnedList start arena ll size entries)
    (enough : entries.length < fuel) :
    ∃ after, removeAll (.block ll) fuel arena = some after ∧ OwnedList start after ll size [] := by
  induction entries generalizing arena fuel with
  | nil =>
      obtain ⟨fuel, rfl⟩ := Nat.exists_eq_add_one_of_ne_zero (Nat.ne_of_gt enough)
      obtain ⟨next, atSentinel, chain⟩ := list.sentinel
      refine ⟨arena, ?_, list⟩
      cases chain with
      | nil =>
          simp only [removeAll, loadNode_block atSentinel, Option.isNone_none, Option.bind_eq_bind,
            Option.bind_some, ↓reduceIte]
  | cons entry entries ih =>
      obtain ⟨fuel, rfl⟩ := Nat.exists_eq_add_one_of_ne_zero
        (Nat.ne_of_gt (Nat.zero_lt_of_lt enough))
      obtain ⟨middle, removes, rest⟩ := list.removeLl
      obtain ⟨after, emptied, last⟩ := ih rest (Nat.lt_of_succ_lt_succ enough)
      obtain ⟨next, atSentinel, chain⟩ := list.sentinel
      refine ⟨after, ?_, last⟩
      rw [chain.head_eq] at atSentinel
      simp only [removeAll, loadNode_block atSentinel, removes, emptied, List.map_cons,
        List.head?_cons, Option.isNone_some, Option.bind_eq_bind, Option.bind_some,
        Bool.false_eq_true, ↓reduceIte]

theorem length_lt (list : OwnedList start arena ll size entries) :
    entries.length < arena.trace.length + 1 := by
  obtain ⟨blocks, live, listed⟩ := list.owns.blocks
  have lengths := listed.length_eq
  have count := length_liveBlocks arena.trace
  have twice : (entries.flatMap fun entry => [entry.node, entry.data]).length =
      2 * entries.length := by
    simp [List.length_flatMap, Nat.mul_comm]
  rw [live, List.length_append] at count
  simp only [List.length_map, listBlocks, List.length_cons, twice] at lengths
  omega

theorem countNodes_eq {next : Option Nat} {listed : List ListEntry} {fuel : Nat}
    (chain : EntryChain arena size next listed) (enough : listed.length < fuel) :
    arena.countNodes fuel next = some listed.length := by
  induction chain generalizing fuel with
  | nil =>
      obtain ⟨fuel, rfl⟩ := Nat.exists_eq_add_one_of_ne_zero (Nat.ne_of_gt enough)
      rfl
  | @cons entry next rest node _ _ _ ih =>
      obtain ⟨fuel, rfl⟩ := Nat.exists_eq_add_one_of_ne_zero
        (Nat.ne_of_gt (Nat.zero_lt_of_lt enough))
      have counted := ih (Nat.lt_of_succ_lt_succ enough)
      simp only [countNodes, loadNode_block node, counted, Option.bind_eq_bind, Option.bind_some,
        List.length_cons]

theorem getLlSize_eq (list : OwnedList start arena ll size entries) :
    arena.getLlSize (some (.block ll)) = some (entries.map ListEntry.content).length := by
  obtain ⟨next, atSentinel, chain⟩ := list.sentinel
  have counted := countNodes_eq chain list.length_lt
  simp only [getLlSize, loadNode_block atSentinel, counted, Option.bind_eq_bind, Option.bind_some,
    List.length_map]

theorem clear (list : OwnedList start arena ll size entries) :
    ∃ final, arena.clearLl (.block ll) = some final ∧ Owns start final [] := by
  obtain ⟨after, emptied, last⟩ := list.removeAll_spec list.length_lt
  refine ⟨after.gDealloc ll, ?_, last.owns.gDealloc⟩
  simp only [clearLl, emptied, Option.bind_eq_bind, Option.bind_some, ListPtr.address]

end OwnedList

theorem ListRun.owned {start arena : Arena} {size ll : Nat} {values : List (List UInt8)}
    (pooled : start.Pooled) (run : ListRun start size ll arena values) :
    ∃ entries, OwnedList start arena ll size entries ∧ entries.map ListEntry.content = values := by
  induction run with
  | init room made => exact ⟨[], .init pooled room made, rfl⟩
  | insert before room inserted ih =>
      obtain ⟨entries, list, rfl⟩ := ih
      obtain ⟨_, entry, content, after⟩ := list.insert room inserted
      exact ⟨entry :: entries, after, by rw [List.map_cons, content]⟩
  | @remove arena after values ok saved before removed ih =>
      obtain ⟨entries, list, rfl⟩ := ih
      cases entries with
      | nil =>
          rw [list.removeLlTo_empty] at removed
          cases removed
          exact ⟨[], list, rfl⟩
      | cons entry entries =>
          obtain ⟨result, returned, rest⟩ := list.removeLlTo_first
          rw [returned] at removed
          cases removed
          exact ⟨entries, rest, rfl⟩

/-- The list is a stack of its data, and clearing it leaves the pool as it was before the list. -/
structure StackList (start arena : Arena) (ll : Nat) (values : List (List UInt8)) : Prop where
  empty : values = [] → arena.removeLlTo (.block ll) = some (arena, false, none)
  first : ∀ value rest, values = value :: rest → ∃ after,
    arena.removeLlTo (.block ll) = some (after, true, some value)
  size : arena.getLlSize (some (.block ll)) = some values.length
  cleared : ∃ final, arena.clearLl (.block ll) = some final ∧ ReleasesTable start start final

theorem list_is_stack (start arena : Arena) (size ll : Nat) (values : List (List UInt8))
    (pooled : start.Pooled) (run : ListRun start size ll arena values) :
    StackList start arena ll values := by
  obtain ⟨entries, list, rfl⟩ := run.owned pooled
  refine ⟨fun none => ?_, fun value rest some => ?_, list.getLlSize_eq, ?_⟩
  · obtain rfl := List.map_eq_nil_iff.mp none
    exact list.removeLlTo_empty
  · obtain ⟨entry, later, rfl, rfl, rfl⟩ := List.map_eq_cons_iff.mp some
    obtain ⟨after, removed, _⟩ := list.removeLlTo_first
    exact ⟨after, removed⟩
  · obtain ⟨final, cleared, owns⟩ := list.clear
    exact ⟨final, cleared, owns.done pooled⟩

theorem exists_rrn_list : ∃ arena ll,
    ListRun (Arena.unusedArena 40000) 2 ll arena [Arena.rrnBytes 7] := by
  have runs : ((Arena.unusedArena 40000).initLl 2 |>.bind fun made =>
      made.1.insertLl (.block made.2) (some (.bytes fun i => (Arena.rrnBytes 7).getD i 0))
        |>.bind fun first =>
          first.1.insertLl (.block made.2) (some (.bytes fun i => (Arena.rrnBytes 9).getD i 0))
            |>.bind fun second =>
              (second.1.removeLlTo (.block made.2)).bind fun removed =>
                if 4 ≤ made.1.memory.freePageNum ∧ 2 ≤ first.1.memory.freePageNum then some removed
                else none).isSome = true := by
    decide +kernel
  obtain ⟨⟨arena, ok, saved⟩, runs⟩ := Option.isSome_iff_exists.mp runs
  obtain ⟨⟨empty, ll⟩, made, runs⟩ := Option.bind_eq_some_iff.mp runs
  obtain ⟨⟨one, _⟩, first, runs⟩ := Option.bind_eq_some_iff.mp runs
  obtain ⟨⟨two, _⟩, second, runs⟩ := Option.bind_eq_some_iff.mp runs
  obtain ⟨result, removed, checked⟩ := Option.bind_eq_some_iff.mp runs
  split_ifs at checked with room
  dsimp only at room
  obtain rfl := Option.some.inj checked
  have node : numPages listNodeSize = 1 := by decide
  have data : numPages 2 = 1 := by decide
  exact ⟨arena, ll, (((ListRun.init (by decide) made).insert (by omega) first).insert
    (by omega) second).remove removed⟩

theorem list_is_stack_seven : ∃ arena ll,
    ListRun (Arena.unusedArena 40000) 2 ll arena [Arena.rrnBytes 7] ∧
      StackList (Arena.unusedArena 40000) arena ll [Arena.rrnBytes 7] := by
  obtain ⟨arena, ll, run⟩ := exists_rrn_list
  exact ⟨arena, ll, run, list_is_stack (Arena.unusedArena 40000) arena 2 ll _
    (Arena.pooled_unusedArena (by decide : 40000 < u32Range)) run⟩

/-- `get_free_rrn` takes from a list of record numbers what the operations of the tree take from
theirs. -/
theorem get_free_rrn_refines (start arena : Arena) (ll : Nat) (rrns : List Rrn)
    (pooled : start.Pooled) (run : ListRun start 2 ll arena (rrns.map Arena.rrnBytes)) :
    ∃ after, arena.takeFreeRrn (.block ll) = some (after, (getFreeRrn rrns).1) ∧
      ListRun start 2 ll after ((getFreeRrn rrns).2.map Arena.rrnBytes) := by
  obtain ⟨entries, list, values⟩ := run.owned pooled
  cases rrns with
  | nil =>
      obtain rfl := List.map_eq_nil_iff.mp values
      refine ⟨arena, ?_, run⟩
      simp only [Arena.takeFreeRrn, list.isLlEmpty_eq, list.getLlSize_eq, List.isEmpty_nil,
        Option.bind_eq_bind, Option.bind_some, ↓reduceIte]
      rfl
  | cons rrn rest =>
      obtain ⟨entry, later, rfl, content, _⟩ := List.map_eq_cons_iff.mp values
      obtain ⟨after, removed, _⟩ := list.removeLlTo_first
      refine ⟨after, ?_, run.remove removed⟩
      simp only [Arena.takeFreeRrn, list.isLlEmpty_eq, List.isEmpty_cons, removed, content,
        Arena.bytesRrn_rrnBytes, Option.bind_eq_bind, Option.bind_some, Bool.false_eq_true, ↓reduceIte]
      rfl

theorem get_free_rrn_refines_seven : ∃ arena after : Arena, ∃ ll,
    arena.takeFreeRrn (.block ll) = some (after, 7) := by
  obtain ⟨arena, ll, run⟩ := exists_rrn_list
  obtain ⟨after, taken, _⟩ := get_free_rrn_refines (Arena.unusedArena 40000) arena ll [7]
    (Arena.pooled_unusedArena (by decide : 40000 < u32Range)) run
  exact ⟨arena, after, ll, taken⟩

end Gaveta
