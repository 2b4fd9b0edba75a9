import Gaveta.Library.Links
import Gaveta.Structures.Arena

/-! `GenericQueue.c`: the queue of a sentinel that knows its first and its last node. -/

namespace Gaveta

open Links

def queueNodeSize : Nat := 32

namespace Arena

def loadQueue (arena : Arena) (address : Nat) : Option QueueNode :=
  match arena.cells address with
  | .queue node => some node
  | _ => none

def createGenericQueueEntry (arena : Arena) (data : Option (Nat → UInt8)) (dataSize : Nat) :
    Option (Arena × Nat) := do
  let (arena, gq) ← arena.gAlloc queueNodeSize
  match data with
  | none =>
      some
        (arena.store gq (.queue { data := none, dataSize := dataSize, next := none, tail := none }),
        gq)
  | some data =>
      let (arena, copy) ← arena.gAlloc dataSize
      let arena := arena.store copy (.bytes (copied dataSize data))
      some
        (arena.store gq
          (.queue { data := some copy, dataSize := dataSize, next := none, tail := none }),
        gq)

def initGq (arena : Arena) (dataSize : Nat) : Option (Arena × Nat) :=
  if dataSize = 0 then none
  else do
    let (arena, gq) ← arena.createGenericQueueEntry none dataSize
    let sentinel ← arena.loadQueue gq
    some (arena.store gq (.queue { sentinel with tail := some gq }), gq)

def isGqEmpty (arena : Arena) : Option Nat → Option Bool
  | none => some true
  | some gq => do
      let sentinel ← arena.loadQueue gq
      some sentinel.next.isNone

def pushGq (arena : Arena) (gq : Option Nat) (data : Option (Nat → UInt8)) :
    Option (Arena × Bool) :=
  match gq with
  | none => some (arena, false)
  | some gq => do
      let head ← arena.loadQueue gq
      let (arena, newNode) ← arena.createGenericQueueEntry data head.dataSize
      let created ← arena.loadQueue newNode
      if created.data.isNone then some (arena, false)
      else
        let sentinel ← arena.loadQueue gq
        let tail ← sentinel.tail
        let last ← arena.loadQueue tail
        let arena := arena.store tail (.queue { last with next := some newNode })
        -- the sentinel may be the node that has just changed
        let sentinel ← arena.loadQueue gq
        some (arena.store gq (.queue { sentinel with tail := some newNode }), true)

def savedData (arena : Arena) (removed : QueueNode) (saveTo : Bool) :
    Option (Option (List UInt8)) :=
  if saveTo then do
    let data ← removed.data
    let content ← arena.loadBytes data removed.dataSize
    some (some content)
  else some none

/-- `pop_gq`: the heap, what it returns and what it has copied to `save_to`. -/
def popGq (arena : Arena) (gq : Option Nat) (saveTo : Bool) :
    Option (Arena × Bool × Option (List UInt8)) := do
  if ← arena.isGqEmpty gq then some (arena, false, none)
  else
    let gq ← gq
    let sentinel ← arena.loadQueue gq
    let nodeToRemove ← sentinel.next
    let removed ← arena.loadQueue nodeToRemove
    let saved ← arena.savedData removed saveTo
    let tail := if removed.next.isNone then some gq else sentinel.tail
    let arena := arena.store gq (.queue { sentinel with next := removed.next, tail := tail })
    let arena :=
      match removed.data with
      | some data => arena.gDealloc data
      | none => arena
    some (arena.gDealloc nodeToRemove, true, saved)

def searchQueue (arena : Arena) (accepts : List UInt8 → Bool) :
    Nat → Option Nat → Option (Option Nat)
  | 0, _ => none
  | _ + 1, none => some none
  | fuel + 1, some aux => do
      let node ← arena.loadQueue aux
      let data ← node.data
      let content ← arena.loadBytes data node.dataSize
      if accepts content then some (some aux) else searchQueue arena accepts fuel node.next

/-- `search_gq`: the found node, or nothing where it returns false. -/
def searchGq (arena : Arena) (gq : Option Nat) (data : List UInt8)
    (cmpFn : Option (List UInt8 → List UInt8 → Bool)) : Option (Option Nat) := do
  if ← arena.isGqEmpty gq then some none
  else
    match cmpFn with
    | none => some none
    | some cmpFn =>
        let gq ← gq
        let sentinel ← arena.loadQueue gq
        arena.searchQueue (fun content => cmpFn content data) (arena.trace.length + 1) sentinel.next

def queueNext (arena : Arena) (address : Nat) : Option Nat :=
  (arena.loadQueue address).bind QueueNode.next

end Arena

structure QueueEntry where
  node : Nat
  data : Nat
  content : List UInt8

def queueTail (gq : Nat) (entries : List QueueEntry) : Nat :=
  (entries.map QueueEntry.node).getLastD gq

structure HoldsQueue (arena : Arena) (gq dataSize : Nat) (entries : List QueueEntry) : Prop where
  chain : Links.Chain arena.queueNext (some gq) (gq :: entries.map QueueEntry.node)
  sentinel : ∃ next, arena.Holds gq
    (.queue { data := none, dataSize := dataSize, next := next, tail := some (queueTail gq entries) })
  nodes : ∀ entry ∈ entries, ∃ next tail, arena.Holds entry.node
    (.queue { data := some entry.data, dataSize := dataSize, next := next, tail := tail })
  contents : ∀ entry ∈ entries, arena.Holds entry.data (.bytes entry.content)
  sizes : ∀ entry ∈ entries, entry.content.length = dataSize
  apart : (entries.map QueueEntry.data).Nodup

namespace Arena

variable {arena after : Arena} {gq dataSize : Nat} {entries : List QueueEntry}

@[simp] theorem loadQueue_holds {address : Nat} {node : QueueNode}
    (holds : arena.Holds address (.queue node)) : arena.loadQueue address = some node := by
  simp only [loadQueue, holds.2]

theorem queueNext_holds {address : Nat} {node : QueueNode}
    (holds : arena.Holds address (.queue node)) : arena.queueNext address = node.next := by
  rw [queueNext, loadQueue_holds holds, Option.bind_some]

theorem queueNext_congr {address : Nat} (same : after.cells address = arena.cells address) :
    after.queueNext address = arena.queueNext address := by
  rw [queueNext, queueNext, loadQueue, loadQueue, same]

theorem queueNext_store (arena : Arena) (address other : Nat) (node : QueueNode) :
    (arena.store address (.queue node)).queueNext other =
      if other = address then node.next else arena.queueNext other := by
  by_cases same : other = address
  · rw [if_pos same, same, queueNext, loadQueue, store_cells_self]
    rfl
  · rw [if_neg same]
    exact queueNext_congr (arena.store_cells_of_ne _ same)

structure EntryCreated (arena after : Arena) (dataSize : Nat) (entry : QueueEntry) : Prop where
  grows : Extends arena after
  nodeFresh : ¬arena.Live entry.node
  dataFresh : ¬arena.Live entry.data
  node : after.Holds entry.node
    (.queue { data := some entry.data, dataSize := dataSize, next := none, tail := none })
  data : after.Holds entry.data (.bytes entry.content)

theorem createGenericQueueEntry_spec {data : Nat → UInt8} {node : Nat}
    (created : arena.createGenericQueueEntry (some data) dataSize = some (after, node)) :
    ∃ copy, EntryCreated arena after dataSize ⟨node, copy, copied dataSize data⟩ := by
  simp only [createGenericQueueEntry, Option.bind_eq_bind, Option.bind_eq_some_iff, Prod.exists,
    Option.some.injEq, Prod.mk.injEq] at created
  obtain ⟨first, address, allocated, second, copy, atCopy, rfl, rfl⟩ := created
  have outer := gAlloc_spec allocated
  have inner := gAlloc_spec atCopy
  have copyFresh : ¬arena.Live copy := fun live => inner.fresh (outer.grows.live live)
  have different : copy ≠ address := by
    rintro rfl
    exact inner.fresh outer.live
  exact ⟨copy, ((outer.grows.trans inner.grows).store copyFresh _).store outer.fresh _,
    outer.fresh, copyFresh, Holds.store_self (inner.grows.live outer.live),
    (Holds.store_self inner.live).store_of_ne _ different⟩

def EntryFits (arena : Arena) (dataSize : Nat) : Prop :=
  ∃ first node, arena.gAlloc queueNodeSize = some (first, node) ∧
    ∃ second copy, first.gAlloc dataSize = some (second, copy)

theorem createGenericQueueEntry_fits (fits : arena.EntryFits dataSize) (data : Nat → UInt8) :
    ∃ after node, arena.createGenericQueueEntry (some data) dataSize = some (after, node) := by
  obtain ⟨first, node, allocated, second, copy, atCopy⟩ := fits
  simp only [createGenericQueueEntry, allocated, atCopy, Option.bind_eq_bind, Option.bind_some,
    Option.some.injEq, Prod.mk.injEq]
  exact ⟨_, _, rfl, rfl⟩

theorem initGq_spec (made : arena.initGq dataSize = some (after, gq)) :
    0 < dataSize ∧ HoldsQueue after gq dataSize [] := by
  rw [initGq] at made
  split_ifs at made with zero
  simp only [createGenericQueueEntry, Option.bind_eq_bind, Option.bind_eq_some_iff, Prod.exists,
    Option.some.injEq, Prod.mk.injEq] at made
  obtain ⟨first, address, ⟨second, same, allocated, rfl, rfl⟩, sentinel, loaded, rfl, rfl⟩ := made
  have live := (gAlloc_spec allocated).live
  rw [loadQueue, store_cells_self] at loaded
  obtain rfl := Option.some.inj loaded
  refine ⟨Nat.pos_of_ne_zero zero, .cons ?_, ⟨none, Holds.store_self live⟩, ?_, ?_, ?_, ?_⟩
  · rw [queueNext_store, if_pos rfl]
    exact .nil
  · exact fun entry member => nomatch member
  · exact fun entry member => nomatch member
  · exact fun entry member => nomatch member
  · exact List.nodup_nil

end Arena

namespace HoldsQueue

open Arena

variable {arena after : Arena} {gq dataSize : Nat} {entries : List QueueEntry} {entry : QueueEntry}

theorem node_ne (queue : HoldsQueue arena gq dataSize entries) (member : entry ∈ entries) :
    entry.node ≠ gq := by
  rintro rfl
  exact (List.nodup_cons.mp queue.chain.nodup).1 (List.mem_map_of_mem member)

theorem holds_node (queue : HoldsQueue arena gq dataSize entries) {address : Nat}
    (member : address ∈ gq :: entries.map QueueEntry.node) :
    ∃ node, arena.Holds address (.queue node) := by
  rcases List.mem_cons.mp member with rfl | member
  · exact ⟨_, queue.sentinel.choose_spec⟩
  · obtain ⟨entry, inside, rfl⟩ := List.mem_map.mp member
    obtain ⟨next, tail, holds⟩ := queue.nodes entry inside
    exact ⟨_, holds⟩

theorem grow (queue : HoldsQueue arena gq dataSize entries) (grows : Extends arena after) :
    HoldsQueue after gq dataSize entries := by
  refine ⟨queue.chain.congr fun address member => ?_, ?_, ?_, ?_, queue.sizes, queue.apart⟩
  · obtain ⟨node, holds⟩ := queue.holds_node member
    exact queueNext_congr (grows.same holds.1)
  · obtain ⟨next, holds⟩ := queue.sentinel
    exact ⟨next, holds.grow grows⟩
  · intro entry member
    obtain ⟨next, tail, holds⟩ := queue.nodes entry member
    exact ⟨next, tail, holds.grow grows⟩
  · exact fun entry member => (queue.contents entry member).grow grows

theorem tail_mem : queueTail gq entries ∈ gq :: entries.map QueueEntry.node :=
  List.getLastD_mem_cons

theorem tail_concat : queueTail gq (entries ++ [entry]) = entry.node := by
  rw [queueTail, List.map_append, List.map_singleton, List.getLastD_concat]

theorem data_ne (queue : HoldsQueue arena gq dataSize entries) {address : Nat} {content : List UInt8}
    (holds : arena.Holds address (.bytes content)) {place : Nat}
    (member : place ∈ gq :: entries.map QueueEntry.node) : address ≠ place := by
  obtain ⟨node, too⟩ := queue.holds_node member
  exact holds.ne too (by simp)

theorem link (queue : HoldsQueue arena gq dataSize entries) {last sentinel : QueueNode}
    (new : entry.node ∉ gq :: entries.map QueueEntry.node)
    (newData : entry.data ∉ entries.map QueueEntry.data) (size : entry.content.length = dataSize)
    (node : arena.Holds entry.node
      (.queue { data := some entry.data, dataSize := dataSize, next := none, tail := none }))
    (content : arena.Holds entry.data (.bytes entry.content))
    (atLast : arena.Holds (queueTail gq entries) (.queue last))
    (atSentinel : (arena.store (queueTail gq entries)
      (.queue { last with next := some entry.node })).loadQueue gq = some sentinel) :
    HoldsQueue ((arena.store (queueTail gq entries)
        (.queue { last with next := some entry.node })).store gq
        (.queue { sentinel with tail := some entry.node })) gq dataSize (entries ++ [entry]) := by
  obtain ⟨next, holds⟩ := queue.sentinel
  have old : sentinel.data = none ∧ sentinel.dataSize = dataSize := by
    by_cases same : gq = queueTail gq entries
    · rw [← same] at atLast atSentinel
      cases holds.unique atLast
      rw [loadQueue, store_cells_self] at atSentinel
      cases atSentinel
      exact ⟨rfl, rfl⟩
    · rw [loadQueue_holds (holds.store_of_ne _ same)] at atSentinel
      cases atSentinel
      exact ⟨rfl, rfl⟩
  have links : ∀ address, ((arena.store (queueTail gq entries)
      (.queue { last with next := some entry.node })).store gq
      (.queue { sentinel with tail := some entry.node })).queueNext address =
        if address = queueTail gq entries then some entry.node else arena.queueNext address := by
    intro address
    rw [queueNext_store, ← queueNext_store arena _ _ { last with next := some entry.node }]
    split_ifs with same
    · rw [same, queueNext, atSentinel, Option.bind_some]
    · rfl
  have notTail : entry.node ≠ queueTail gq entries := by
    intro same
    exact new (same ▸ tail_mem)
  have notGq : entry.node ≠ gq := by
    intro same
    exact new (same ▸ List.mem_cons_self)
  constructor
  · rw [List.map_append, List.map_singleton]
    refine queue.chain.concat (fun address member different => ?_) ?_ ?_
    · exact (links address).trans (if_neg different)
    · exact (links _).trans (if_pos rfl)
    · rw [links, if_neg notTail, queueNext_holds node]
  · rw [tail_concat]
    refine ⟨sentinel.next, ?_⟩
    rw [← old.1, ← old.2]
    exact Holds.store_self holds.1
  · intro other member
    rcases List.mem_append.mp member with member | member
    · obtain ⟨next, tail, atNode⟩ := queue.nodes other member
      by_cases same : other.node = queueTail gq entries
      · rw [← same] at atLast ⊢
        cases atNode.unique atLast
        exact ⟨_, _, (Holds.store_self atLast.1).store_of_ne _ (queue.node_ne member)⟩
      · exact ⟨next, tail, (atNode.store_of_ne _ same).store_of_ne _ (queue.node_ne member)⟩
    · obtain rfl := List.mem_singleton.mp member
      exact ⟨none, none, (node.store_of_ne _ notTail).store_of_ne _ notGq⟩
  · intro other member
    have old : arena.Holds other.data (.bytes other.content) := by
      rcases List.mem_append.mp member with member | member
      · exact queue.contents other member
      · obtain rfl := List.mem_singleton.mp member
        exact content
    exact (old.store_of_ne _ (queue.data_ne old tail_mem)).store_of_ne _
      (queue.data_ne old List.mem_cons_self)
  · intro other member
    rcases List.mem_append.mp member with member | member
    · exact queue.sizes other member
    · obtain rfl := List.mem_singleton.mp member
      exact size
  · rw [List.map_append, List.map_singleton]
    exact List.nodup_append.mpr ⟨queue.apart, List.nodup_singleton _, fun left inside right same =>
      fun equal => newData (List.mem_singleton.mp same ▸ equal ▸ inside)⟩

theorem push_created (queue : HoldsQueue arena gq dataSize entries) {data : Nat → UInt8}
    {middle : Arena} {node : Nat}
    (created : arena.createGenericQueueEntry (some data) dataSize = some (middle, node)) :
    ∃ after entry, arena.pushGq (some gq) (some data) = some (after, true) ∧
      entry.content = copied dataSize data ∧ ¬arena.Live entry.node ∧ ¬arena.Live entry.data ∧
        HoldsQueue after gq dataSize (entries ++ [entry]) := by
  obtain ⟨copy, spec⟩ := createGenericQueueEntry_spec created
  have grown := queue.grow spec.grows
  obtain ⟨next, before⟩ := queue.sentinel
  obtain ⟨_, during⟩ := grown.sentinel
  obtain ⟨last, atLast⟩ := grown.holds_node tail_mem
  have new : node ∉ gq :: entries.map QueueEntry.node := by
    intro member
    obtain ⟨_, holds⟩ := queue.holds_node member
    exact spec.nodeFresh holds.1
  have newData : copy ∉ entries.map QueueEntry.data := by
    intro member
    obtain ⟨other, inside, rfl⟩ := List.mem_map.mp member
    exact spec.dataFresh (queue.contents other inside).1
  have loads : ∃ sentinel, (middle.store (queueTail gq entries)
      (.queue { last with next := some node })).loadQueue gq = some sentinel := by
    by_cases same : gq = queueTail gq entries
    · rw [← same, loadQueue, store_cells_self]
      exact ⟨_, rfl⟩
    · exact ⟨_, loadQueue_holds (during.store_of_ne _ same)⟩
  obtain ⟨sentinel, atSentinel⟩ := loads
  refine ⟨_, ⟨node, copy, copied dataSize data⟩, ?_, rfl, spec.nodeFresh, spec.dataFresh,
    grown.link new newData (length_copied dataSize data) spec.node spec.data atLast atSentinel⟩
  simp only [pushGq, loadQueue_holds before, created, loadQueue_holds spec.node,
    loadQueue_holds during, loadQueue_holds atLast, atSentinel, Option.bind_eq_bind,
    Option.bind_some, Option.isNone_some, Bool.false_eq_true, ↓reduceIte]

theorem push (queue : HoldsQueue arena gq dataSize entries) {data : Nat → UInt8} {ok : Bool}
    (pushed : arena.pushGq (some gq) (some data) = some (after, ok)) :
    ∃ entry, entry.content = copied dataSize data ∧ ¬arena.Live entry.node ∧
      ¬arena.Live entry.data ∧ HoldsQueue after gq dataSize (entries ++ [entry]) := by
  obtain ⟨next, before⟩ := queue.sentinel
  cases created : arena.createGenericQueueEntry (some data) dataSize with
  | none =>
      simp [pushGq, loadQueue_holds before, created] at pushed
  | some made =>
      obtain ⟨result, entry, returned, content⟩ := queue.push_created created
      rw [returned] at pushed
      cases pushed
      exact ⟨entry, content⟩

theorem sentinel_head (queue : HoldsQueue arena gq dataSize entries) :
    arena.Holds gq (.queue
      { data := none, dataSize := dataSize, next := (entries.map QueueEntry.node).head?,
        tail := some (queueTail gq entries) }) := by
  obtain ⟨next, holds⟩ := queue.sentinel
  have head := queue.chain.tail.head_eq
  rw [queueNext_holds holds] at head
  dsimp only at head
  rw [← head]
  exact holds

theorem isGqEmpty_eq (queue : HoldsQueue arena gq dataSize entries) :
    arena.isGqEmpty (some gq) = some entries.isEmpty := by
  rw [isGqEmpty, loadQueue_holds queue.sentinel_head]
  cases entries <;> rfl

theorem pop_empty (queue : HoldsQueue arena gq dataSize []) (saveTo : Bool) :
    arena.popGq (some gq) saveTo = some (arena, false, none) := by
  simp only [popGq, queue.isGqEmpty_eq, List.isEmpty_nil, Option.bind_eq_bind, Option.bind_some,
    ↓reduceIte]

theorem unlink (queue : HoldsQueue arena gq dataSize (entry :: entries)) {sentinel : QueueNode}
    (same : sentinel =
      { data := none, dataSize := dataSize, next := arena.queueNext entry.node,
        tail := some (queueTail gq entries) }) :
    HoldsQueue (((arena.store gq (.queue sentinel)).gDealloc entry.data).gDealloc entry.node)
      gq dataSize entries := by
  have distinct := List.nodup_cons.mp queue.chain.nodup
  have others := List.nodup_cons.mp distinct.2
  have first : entry ∈ entry :: entries := List.mem_cons_self
  have later : ∀ {other}, other ∈ entries → other ∈ entry :: entries :=
    fun member => List.mem_cons_of_mem _ member
  have inChain : entry.node ∈ gq :: (entry :: entries).map QueueEntry.node :=
    List.mem_cons_of_mem _ List.mem_cons_self
  have atData := queue.contents entry first
  have notData : ∀ {place}, place ∈ gq :: (entry :: entries).map QueueEntry.node →
      place ≠ entry.data := fun member => (queue.data_ne atData member).symm
  have next : ∀ other ∈ entries, other.node ≠ entry.node := by
    intro other member same
    exact others.1 (same ▸ List.mem_map_of_mem member)
  constructor
  · refine queue.chain.bypass (fun address member => ?_) ?_
    · obtain ⟨other, inside, rfl⟩ := List.mem_map.mp member
      exact (queueNext_store arena gq other.node sentinel).trans
        (if_neg (queue.node_ne (later inside)))
    · refine (queueNext_store arena gq gq sentinel).trans ?_
      rw [if_pos rfl, same]
  · refine ⟨arena.queueNext entry.node, Holds.gDealloc (Holds.gDealloc ?_ ?_) ?_⟩
    · rw [← same]
      exact Holds.store_self queue.sentinel_head.1
    · exact notData List.mem_cons_self
    · exact (queue.node_ne first).symm
  · intro other member
    obtain ⟨link, end_, holds⟩ := queue.nodes other (later member)
    refine ⟨link, end_, Holds.gDealloc (Holds.gDealloc ?_ ?_) (next other member)⟩
    · exact holds.store_of_ne _ (queue.node_ne (later member))
    · exact notData (List.mem_cons_of_mem _ (List.mem_map_of_mem (later member)))
  · intro other member
    have holds := queue.contents other (later member)
    refine Holds.gDealloc (Holds.gDealloc ?_ ?_) (queue.data_ne holds inChain)
    · exact holds.store_of_ne _ (queue.data_ne holds List.mem_cons_self)
    · intro same
      exact (List.nodup_cons.mp queue.apart).1 (same ▸ List.mem_map_of_mem member)
  · exact fun other member => queue.sizes other (later member)
  · exact (List.nodup_cons.mp queue.apart).2

theorem pop_first (queue : HoldsQueue arena gq dataSize (entry :: entries)) (saveTo : Bool) :
    ∃ after, arena.popGq (some gq) saveTo =
        some (after, true, if saveTo then some entry.content else none) ∧
      HoldsQueue after gq dataSize entries := by
  have first : entry ∈ entry :: entries := List.mem_cons_self
  have atSentinel := queue.sentinel_head
  have atData := queue.contents entry first
  obtain ⟨next, tail, atNode⟩ := queue.nodes entry first
  have link := queueNext_holds atNode
  dsimp only at link
  have head := queue.chain.tail
  rw [queueNext_holds atSentinel] at head
  have rest := (head.head_eq ▸ head : Links.Chain _ (some entry.node) _).tail.head_eq
  rw [link] at rest
  have size := queue.sizes entry first
  have saved : arena.savedData
      { data := some entry.data, dataSize := dataSize, next := next, tail := tail } saveTo =
        some (if saveTo then some entry.content else none) := by
    rw [savedData]
    cases saveTo with
    | false => rfl
    | true =>
        rw [← size]
        simp only [loadBytes_holds atData, Option.bind_eq_bind, Option.bind_some, ↓reduceIte]
  have last : (if next.isNone then some gq else some (queueTail gq (entry :: entries))) =
      some (queueTail gq entries) := by
    rw [rest]
    cases entries with
    | nil => rfl
    | cons second entries => rfl
  have after := queue.unlink (congrArg₂ (QueueNode.mk none dataSize) link.symm last)
  refine ⟨_, ?_, after⟩
  simp only [popGq, queue.isGqEmpty_eq, loadQueue_holds atSentinel, loadQueue_holds atNode, saved,
    List.isEmpty_cons, List.map_cons, List.head?_cons, Option.bind_eq_bind, Option.bind_some,
    Bool.false_eq_true, ↓reduceIte]

theorem length_lt (queue : HoldsQueue arena gq dataSize entries) :
    entries.length < arena.trace.length + 1 := by
  have live : ∀ address ∈ entries.map QueueEntry.data,
      address ∈ (liveBlocks arena.trace).map Block.address := by
    intro address member
    obtain ⟨entry, inside, rfl⟩ := List.mem_map.mp member
    obtain ⟨block, listed, same⟩ := (queue.contents entry inside).1
    exact List.mem_map.mpr ⟨block, listed, same⟩
  have count := (queue.apart.subperm live).length_le
  have blocks := length_liveBlocks arena.trace
  simp only [List.length_map] at count
  omega

theorem search_from (queue : HoldsQueue arena gq dataSize entries) (accepts : List UInt8 → Bool)
    {left : List QueueEntry} {head : Option Nat} {fuel : Nat}
    (chain : Links.Chain arena.queueNext head (left.map QueueEntry.node))
    (inside : ∀ entry ∈ left, entry ∈ entries) (enough : left.length < fuel) :
    arena.searchQueue accepts fuel head =
      some ((left.find? fun entry => accepts entry.content).map QueueEntry.node) := by
  induction left generalizing head fuel with
  | nil =>
      obtain ⟨fuel, rfl⟩ := Nat.exists_eq_add_one_of_ne_zero (Nat.ne_of_gt enough)
      rw [chain.head_eq]
      rfl
  | cons entry left ih =>
      obtain ⟨fuel, rfl⟩ := Nat.exists_eq_add_one_of_ne_zero (Nat.ne_of_gt (Nat.zero_lt_of_lt enough))
      have member := inside entry List.mem_cons_self
      obtain ⟨next, tail, atNode⟩ := queue.nodes entry member
      have atData := loadBytes_holds (queue.contents entry member)
      rw [queue.sizes entry member] at atData
      obtain rfl : head = some entry.node := chain.head_eq
      have rest := chain.tail
      rw [queueNext_holds atNode] at rest
      simp only [searchQueue, loadQueue_holds atNode, atData, Option.bind_eq_bind, Option.bind_some]
      by_cases accepted : accepts entry.content = true
      · simp only [List.find?_cons, accepted, ↓reduceIte, Option.map_some]
      · simp only [List.find?_cons, accepted, Bool.false_eq_true, ↓reduceIte]
        exact ih rest (fun other later => inside other (List.mem_cons_of_mem _ later))
          (Nat.lt_of_succ_lt_succ enough)

theorem search (queue : HoldsQueue arena gq dataSize entries) (data : List UInt8)
    (cmpFn : List UInt8 → List UInt8 → Bool) :
    arena.searchGq (some gq) data (some cmpFn) =
      some ((entries.find? fun entry => cmpFn entry.content data).map QueueEntry.node) := by
  have atSentinel := queue.sentinel_head
  have chain := queue.chain.tail
  rw [queueNext_holds atSentinel] at chain
  have found := queue.search_from (fun content => cmpFn content data) chain (fun _ member => member)
    queue.length_lt
  cases entries with
  | nil =>
      simp only [searchGq, queue.isGqEmpty_eq, List.isEmpty_nil, Option.bind_eq_bind,
        Option.bind_some, ↓reduceIte]
      rfl
  | cons entry entries =>
      simp only [searchGq, queue.isGqEmpty_eq, loadQueue_holds atSentinel, List.isEmpty_cons,
        Option.bind_eq_bind, Option.bind_some, Bool.false_eq_true, ↓reduceIte]
      exact found

end HoldsQueue

/-- The heaps of the runs of `push_gq` and `pop_gq`, with the data that is in the queue; a push of
`NULL` fails and is not one of them. -/
inductive QueueRun (start : Arena) (dataSize gq : Nat) : Arena → List (List UInt8) → Prop
  | init {arena : Arena} (made : start.initGq dataSize = some (arena, gq)) :
      QueueRun start dataSize gq arena []
  | push {arena after : Arena} {values : List (List UInt8)} {data : Nat → UInt8} {ok : Bool}
      (before : QueueRun start dataSize gq arena values)
      (pushed : arena.pushGq (some gq) (some data) = some (after, ok)) :
      QueueRun start dataSize gq after (values ++ [copied dataSize data])
  | pop {arena after : Arena} {values : List (List UInt8)} {saveTo ok : Bool}
      {saved : Option (List UInt8)} (before : QueueRun start dataSize gq arena values)
      (popped : arena.popGq (some gq) saveTo = some (after, ok, saved)) :
      QueueRun start dataSize gq after values.tail

structure FifoQueue (arena : Arena) (gq dataSize : Nat) (values : List (List UInt8)) : Prop where
  contents : ∃ entries, HoldsQueue arena gq dataSize entries ∧
    (gq :: entries.map QueueEntry.node).Nodup ∧ entries.map QueueEntry.content = values ∧
    ∀ data cmpFn, arena.searchGq (some gq) data (some cmpFn) =
      some ((entries.find? fun entry => cmpFn entry.content data).map QueueEntry.node)
  push : arena.EntryFits dataSize → ∀ data, ∃ after,
    arena.pushGq (some gq) (some data) = some (after, true)
  popEmpty : values = [] → ∀ saveTo, arena.popGq (some gq) saveTo = some (arena, false, none)
  popFirst : ∀ first rest, values = first :: rest → ∀ saveTo, ∃ after,
    arena.popGq (some gq) saveTo = some (after, true, if saveTo then some first else none)

theorem HoldsQueue.fifo {arena : Arena} {gq dataSize : Nat} {entries : List QueueEntry}
    (queue : HoldsQueue arena gq dataSize entries) :
    FifoQueue arena gq dataSize (entries.map QueueEntry.content) := by
  refine ⟨⟨entries, queue, queue.chain.nodup, rfl, queue.search⟩, fun fits data => ?_, ?_, ?_⟩
  · obtain ⟨middle, node, created⟩ := Arena.createGenericQueueEntry_fits fits data
    obtain ⟨after, entry, pushed, _⟩ := queue.push_created created
    exact ⟨after, pushed⟩
  · intro none saveTo
    obtain rfl := List.map_eq_nil_iff.mp none
    exact queue.pop_empty saveTo
  · intro first rest some saveTo
    obtain ⟨entry, later, rfl, rfl, rfl⟩ := List.map_eq_cons_iff.mp some
    obtain ⟨after, popped, _⟩ := queue.pop_first saveTo
    exact ⟨after, popped⟩

theorem QueueRun.holds {start arena : Arena} {dataSize gq : Nat} {values : List (List UInt8)}
    (run : QueueRun start dataSize gq arena values) :
    ∃ entries, HoldsQueue arena gq dataSize entries ∧ entries.map QueueEntry.content = values := by
  induction run with
  | init made => exact ⟨[], (Arena.initGq_spec made).2, rfl⟩
  | push before pushed ih =>
      obtain ⟨entries, queue, rfl⟩ := ih
      obtain ⟨entry, content, -, -, after⟩ := queue.push pushed
      exact ⟨entries ++ [entry], after, by rw [List.map_append, List.map_singleton, content]⟩
  | @pop arena after values saveTo ok saved before popped ih =>
      obtain ⟨entries, queue, rfl⟩ := ih
      cases entries with
      | nil =>
          rw [queue.pop_empty] at popped
          cases popped
          exact ⟨[], queue, rfl⟩
      | cons entry entries =>
          obtain ⟨result, returned, rest⟩ := queue.pop_first saveTo
          rw [returned] at popped
          cases popped
          exact ⟨entries, rest, rfl⟩

/-- After every run of pushes and pops the queue holds the data that was pushed and not yet popped,
in the order of the pushes, and its operations are those of a list. -/
theorem queue_is_fifo (start arena : Arena) (dataSize gq : Nat) (values : List (List UInt8))
    (run : QueueRun start dataSize gq arena values) : FifoQueue arena gq dataSize values := by
  obtain ⟨entries, queue, rfl⟩ := run.holds
  exact queue.fifo

theorem queue_is_fifo_two : ∃ arena gq,
    QueueRun (Arena.unusedArena 40000) 2 gq arena [[8, 8]] ∧ FifoQueue arena gq 2 [[8, 8]] := by
  have runs : ((Arena.unusedArena 40000).initGq 2 |>.bind fun made =>
      made.1.pushGq (some made.2) (some fun _ => 7) |>.bind fun first =>
        first.1.pushGq (some made.2) (some fun _ => 8) |>.bind fun second =>
          second.1.popGq (some made.2) true).isSome = true := by
    decide +kernel
  obtain ⟨⟨arena, ok, saved⟩, runs⟩ := Option.isSome_iff_exists.mp runs
  obtain ⟨⟨empty, gq⟩, made, runs⟩ := Option.bind_eq_some_iff.mp runs
  obtain ⟨⟨one, _⟩, first, runs⟩ := Option.bind_eq_some_iff.mp runs
  obtain ⟨⟨two, _⟩, second, popped⟩ := Option.bind_eq_some_iff.mp runs
  have run := (((QueueRun.init made).push first).push second).pop popped
  exact ⟨arena, gq, run, queue_is_fifo _ _ _ _ _ run⟩

end Gaveta
