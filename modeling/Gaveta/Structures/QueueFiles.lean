import Gaveta.Structures.ListFiles
import Gaveta.Structures.Queue

/-! Queues of numbers that are written to a file and read into another queue. -/

namespace Gaveta

open ListFile

def intSize : Nat := 4

namespace Arena

def exportEntries (arena : Arena) (fn : List UInt8 → List UInt8) :
    Nat → Option Nat → Option (List UInt8)
  | 0, _ => none
  | _ + 1, none => some []
  | fuel + 1, some aux => do
      let node ← arena.loadQueue aux
      let data ← node.data
      let content ← arena.loadBytes data node.dataSize
      let text ← exportEntries arena fn fuel node.next
      some (fn content ++ text)

/-- `export_gq_to_disk`: the file at the path, and the result; `opens` is whether it can be
written. -/
def exportGqToDisk (arena : Arena) (gq : Option Nat) (file : Option (List UInt8)) (opens : Bool)
    (fn : List UInt8 → List UInt8) : Option (Option (List UInt8) × Bool) :=
  match gq with
  | none => some (file, false)
  | some gq =>
      if opens then do
        let sentinel ← arena.loadQueue gq
        let text ← arena.exportEntries fn (arena.trace.length + 1) sentinel.next
        some (some text, true)
      else some (file, false)

def pushRead (arena : Arena) (gq : Nat) (read : Number) : Option Arena := do
  let sentinel ← arena.loadQueue gq
  let (arena, data) ← arena.gAlloc sentinel.dataSize
  let arena := arena.store data (.bytes (copied intSize (numberBytes read)))
  let (arena, _) ← arena.pushGq (some gq) (some (numberBytes read))
  some (arena.gDealloc data)

def readGqLoop (gq : Nat) (fn : Nat → Stream → Stream × Number) :
    Nat → Nat → Stream → Arena → Option Arena
  | 0, _, _, _ => none
  | fuel + 1, turn, stream, arena =>
      if stream.eof then some arena
      else do
        let read := fn turn stream
        let arena ← arena.pushRead gq read.2
        readGqLoop gq fn fuel (turn + 1) read.1 arena

/-- `read_gq_from_disk`: nothing if memory is short or `fuel` turns are not enough. -/
def readGqFromDisk (arena : Arena) (gq : Option Nat) (file : Option (List UInt8))
    (fn : Nat → Stream → Stream × Number) (fuel : Nat) : Option (Arena × Bool) :=
  match gq, file with
  | none, _ => some (arena, false)
  | some _, none => some (arena, false)
  | some gq, some content =>
      (readGqLoop gq fn fuel 0 (Stream.open_ content) arena).map fun arena => (arena, true)

def pushAllRead (gq : Nat) : List Number → Arena → Option Arena
  | [], arena => some arena
  | read :: reads, arena => do
      let arena ← arena.pushRead gq read
      pushAllRead gq reads arena

end Arena

def queueNumbers (entries : List QueueEntry) : List Number :=
  entries.map fun entry => numberAt entry.content

def intNodeText (content : List UInt8) : List UInt8 := writeIntNode (numberAt content)

def QueueRoundTrips (arena : Arena) (gq other : Nat) (numbers : List Number)
    (file : Option (List UInt8)) (stale : Nat → Number) (beyond : Int → Number) : Prop :=
  ∃ text after fuel, arena.exportGqToDisk (some gq) file true intNodeText = some (some text, true) ∧
    arena.readGqFromDisk (some other) (some text)
        (fun turn => readIntNode (stale turn) beyond) fuel = some (after, true) ∧
    ∃ entries, HoldsQueue after other intSize entries ∧ queueNumbers entries = numbers

namespace HoldsQueue

open Arena

variable {arena after : Arena} {gq other dataSize : Nat} {entries : List QueueEntry}

theorem release (queue : HoldsQueue arena gq dataSize entries) {address : Nat}
    (notNode : address ∉ gq :: entries.map QueueEntry.node)
    (notData : address ∉ entries.map QueueEntry.data) :
    HoldsQueue (arena.gDealloc address) gq dataSize entries := by
  refine ⟨queue.chain.congr fun node member => queueNext_congr rfl, ?_, ?_, ?_, queue.sizes,
    queue.apart⟩
  · obtain ⟨next, holds⟩ := queue.sentinel
    refine ⟨next, holds.gDealloc ?_⟩
    rintro rfl
    exact notNode List.mem_cons_self
  · intro entry member
    obtain ⟨next, tail, holds⟩ := queue.nodes entry member
    refine ⟨next, tail, holds.gDealloc ?_⟩
    rintro rfl
    exact notNode (List.mem_cons_of_mem _ (List.mem_map_of_mem member))
  · intro entry member
    refine (queue.contents entry member).gDealloc ?_
    rintro rfl
    exact notData (List.mem_map_of_mem member)

theorem pushRead (queue : HoldsQueue arena gq intSize entries) {read : Number}
    (pushed : arena.pushRead gq read = some after) :
    ∃ entry, numberAt entry.content = read ∧ HoldsQueue after gq intSize (entries ++ [entry]) := by
  obtain ⟨next, atSentinel⟩ := queue.sentinel
  simp only [Arena.pushRead, loadQueue_holds atSentinel, Option.bind_eq_bind, Option.bind_some,
    Option.bind_eq_some_iff, Prod.exists, Option.some.injEq] at pushed
  obtain ⟨first, data, allocated, second, ok, push, rfl⟩ := pushed
  have new := gAlloc_spec allocated
  have grows := new.grows.store new.fresh (.bytes (copied intSize (numberBytes read)))
  obtain ⟨entry, content, nodeFresh, dataFresh, pushed⟩ := (queue.grow grows).push push
  refine ⟨entry, ?_, pushed.release ?_ ?_⟩
  · rw [content]
    exact numberAt_numberBytes read
  · rw [List.map_append, List.map_singleton, ← List.cons_append]
    intro member
    rcases List.mem_append.mp member with member | member
    · obtain ⟨node, holds⟩ := queue.holds_node member
      exact new.fresh holds.1
    · obtain rfl := List.mem_singleton.mp member
      exact nodeFresh new.live
  · rw [List.map_append, List.map_singleton]
    intro member
    rcases List.mem_append.mp member with member | member
    · obtain ⟨earlier, inside, rfl⟩ := List.mem_map.mp member
      exact new.fresh (queue.contents earlier inside).1
    · obtain rfl := List.mem_singleton.mp member
      exact dataFresh new.live

theorem pushAllRead {reads : List Number} (queue : HoldsQueue arena gq intSize entries)
    (pushed : arena.pushAllRead gq reads = some after) :
    ∃ more, queueNumbers more = reads ∧ HoldsQueue after gq intSize (entries ++ more) := by
  induction reads generalizing arena entries with
  | nil =>
      obtain rfl := Option.some.inj pushed
      exact ⟨[], rfl, by rwa [List.append_nil]⟩
  | cons read reads ih =>
      simp only [Arena.pushAllRead, Option.bind_eq_bind, Option.bind_eq_some_iff] at pushed
      obtain ⟨middle, first, rest⟩ := pushed
      obtain ⟨entry, rfl, held⟩ := queue.pushRead first
      obtain ⟨more, rfl, final⟩ := ih held rest
      exact ⟨entry :: more, rfl, by rwa [List.append_cons]⟩

theorem exports_from (queue : HoldsQueue arena gq dataSize entries) (fn : List UInt8 → List UInt8)
    {left : List QueueEntry} {head : Option Nat} {fuel : Nat}
    (chain : Links.Chain arena.queueNext head (left.map QueueEntry.node))
    (inside : ∀ entry ∈ left, entry ∈ entries) (enough : left.length < fuel) :
    arena.exportEntries fn fuel head = some (left.flatMap fun entry => fn entry.content) := by
  induction left generalizing head fuel with
  | nil =>
      obtain ⟨fuel, rfl⟩ := Nat.exists_eq_add_one_of_ne_zero (Nat.ne_of_gt enough)
      rw [chain.head_eq]
      rfl
  | cons entry left ih =>
      obtain ⟨fuel, rfl⟩ := Nat.exists_eq_add_one_of_ne_zero (Nat.ne_of_gt (Nat.zero_lt_of_lt enough))
      have member := inside entry List.mem_cons_self
      obtain ⟨next, tail, atNode⟩ := queue.nodes entry member
      have atData := loadBytes_holds (queue.contents entry member)
      rw [queue.sizes entry member] at atData
      obtain rfl : head = some entry.node := chain.head_eq
      have rest := chain.tail
      rw [queueNext_holds atNode] at rest
      have text := ih rest (fun other later => inside other (List.mem_cons_of_mem _ later))
        (Nat.lt_of_succ_lt_succ enough)
      simp only [exportEntries, loadQueue_holds atNode, atData, text, Option.bind_eq_bind,
        Option.bind_some, List.flatMap_cons]

theorem exports (queue : HoldsQueue arena gq dataSize entries) (file : Option (List UInt8))
    (fn : List UInt8 → List UInt8) :
    arena.exportGqToDisk (some gq) file true fn =
      some (some (entries.flatMap fun entry => fn entry.content), true) := by
  have atSentinel := queue.sentinel_head
  have chain := queue.chain.tail
  rw [queueNext_holds atSentinel] at chain
  have text := queue.exports_from fn chain (fun _ member => member) queue.length_lt
  simp only [exportGqToDisk, loadQueue_holds atSentinel, text, Option.bind_eq_bind,
    Option.bind_some, ↓reduceIte]

theorem entries_nil (queue : HoldsQueue arena gq dataSize [])
    (same : HoldsQueue arena gq dataSize entries) : entries = [] := by
  have nodes := queue.chain.unique same.chain
  simp only [List.map_nil, List.cons.injEq, true_and] at nodes
  exact List.map_eq_nil_iff.mp nodes.symm

theorem readGqLoop_longer (queue : HoldsQueue arena gq intSize entries)
    {fn : Nat → Stream → Stream × Number} {fuel turn : Nat} {stream : Stream}
    (ends : readGqLoop gq fn fuel turn stream arena = some after) :
    ∃ more, HoldsQueue after gq intSize (entries ++ more) := by
  induction fuel generalizing arena entries turn stream with
  | zero => cases ends
  | succ fuel ih =>
      rw [readGqLoop] at ends
      split_ifs at ends with flag
      · obtain rfl := Option.some.inj ends
        exact ⟨[], by rwa [List.append_nil]⟩
      · obtain ⟨middle, first, rest⟩ := Option.bind_eq_some_iff.mp ends
        obtain ⟨entry, _, held⟩ := queue.pushRead first
        obtain ⟨more, final⟩ := ih held rest
        exact ⟨entry :: more, by rwa [List.append_cons]⟩

end HoldsQueue

open Arena

theorem readGqLoop_text {gq fuel turn : Nat} {numbers : List Number} {stale : Nat → Number}
    {beyond : Int → Number} {stream : Stream} {arena : Arena}
    (left : stream.rest = numbers.flatMap writeIntNode) (flag : stream.eof = numbers.isEmpty)
    (enough : numbers.length < fuel) :
    readGqLoop gq (fun turn => readIntNode (stale turn) beyond) fuel turn stream arena =
      pushAllRead gq numbers arena := by
  induction numbers generalizing fuel turn stream arena with
  | nil =>
      obtain ⟨fuel, rfl⟩ := Nat.exists_eq_add_one_of_ne_zero (Nat.ne_of_gt enough)
      rw [readGqLoop, flag]
      rfl
  | cons data numbers ih =>
      obtain ⟨fuel, rfl⟩ := Nat.exists_eq_add_one_of_ne_zero (Nat.ne_of_gt (Nat.zero_lt_of_lt enough))
      obtain ⟨rest, eof, value⟩ :
          (readIntNode (stale turn) beyond stream).1.rest = numbers.flatMap writeIntNode ∧
            (readIntNode (stale turn) beyond stream).1.eof = numbers.isEmpty ∧
            (readIntNode (stale turn) beyond stream).2 = data := readNode_text left
      have later : ∀ arena, readGqLoop gq (fun turn => readIntNode (stale turn) beyond) fuel
          (turn + 1) (readIntNode (stale turn) beyond stream).1 arena =
            pushAllRead gq numbers arena :=
        fun arena => ih rest eof (Nat.lt_of_succ_lt_succ enough)
      rw [readGqLoop, flag]
      simp only [List.isEmpty_cons, Bool.false_eq_true, ↓reduceIte, value, later, pushAllRead]

section RoundTrip

variable {arena : Arena} {gq other : Nat} {entries : List QueueEntry}

theorem queue_round_trips_cons (queue : HoldsQueue arena gq intSize entries)
    (fresh : HoldsQueue arena other intSize []) (file : Option (List UInt8))
    (stale : Nat → Number) (beyond : Int → Number) (some_ : entries ≠ [])
    (room : (arena.pushAllRead other (queueNumbers entries)).isSome) :
    QueueRoundTrips arena gq other (queueNumbers entries) file stale beyond := by
  obtain ⟨after, pushed⟩ := Option.isSome_iff_exists.mp room
  obtain ⟨more, numbers, held⟩ := fresh.pushAllRead pushed
  have text : (entries.flatMap fun entry => intNodeText entry.content) =
      (queueNumbers entries).flatMap writeIntNode := by
    rw [queueNumbers, List.flatMap_map]
    rfl
  have flag : (Stream.open_ ((queueNumbers entries).flatMap writeIntNode)).eof =
      (queueNumbers entries).isEmpty := by
    have nonempty : entries.isEmpty = false := by simpa using some_
    rw [queueNumbers, List.isEmpty_map, nonempty]
    rfl
  have loop : readGqLoop other (fun turn => readIntNode (stale turn) beyond)
      ((queueNumbers entries).length + 1) 0
      (Stream.open_ ((queueNumbers entries).flatMap writeIntNode)) arena =
        pushAllRead other (queueNumbers entries) arena :=
    readGqLoop_text rfl flag (Nat.lt_succ_self _)
  refine ⟨_, after, (queueNumbers entries).length + 1, queue.exports file intNodeText, ?_, more,
    held, numbers⟩
  rw [text, readGqFromDisk, loop, pushed]
  rfl

/-- The flag is clear before the first read, so an empty file gives one number. -/
theorem queue_round_trips_nil (fresh : HoldsQueue arena other intSize [])
    (file : Option (List UInt8)) (stale : Nat → Number) (beyond : Int → Number) :
    ¬QueueRoundTrips arena gq other [] file stale beyond := by
  rintro ⟨text, after, fuel, exported, read, entries, held, numbers⟩
  obtain rfl := List.map_eq_nil_iff.mp numbers
  obtain ⟨result, loop, same⟩ := Option.map_eq_some_iff.mp read
  obtain rfl := (Prod.mk.inj same).1
  cases fuel with
  | zero => cases loop
  | succ fuel =>
      have clear : (Stream.open_ text).eof = false := rfl
      rw [readGqLoop, clear, if_neg Bool.false_ne_true] at loop
      obtain ⟨middle, first, rest⟩ := Option.bind_eq_some_iff.mp loop
      obtain ⟨entry, _, one⟩ := fresh.pushRead first
      obtain ⟨more, final⟩ := one.readGqLoop_longer rest
      exact absurd (held.entries_nil final) (by simp)

theorem queue_round_trip_iff (queue : HoldsQueue arena gq intSize entries)
    (fresh : HoldsQueue arena other intSize []) (file : Option (List UInt8))
    (stale : Nat → Number) (beyond : Int → Number)
    (room : (arena.pushAllRead other (queueNumbers entries)).isSome) :
    QueueRoundTrips arena gq other (queueNumbers entries) file stale beyond ↔ entries ≠ [] := by
  constructor
  · rintro survives rfl
    exact queue_round_trips_nil fresh file stale beyond survives
  · intro some_
    exact queue_round_trips_cons queue fresh file stale beyond some_ room

theorem initGq_extends {after : Arena} {dataSize : Nat}
    (made : arena.initGq dataSize = some (after, gq)) : Extends arena after := by
  rw [initGq] at made
  split_ifs at made
  simp only [createGenericQueueEntry, Option.bind_eq_bind, Option.bind_eq_some_iff, Prod.exists,
    Option.some.injEq, Prod.mk.injEq] at made
  obtain ⟨first, address, ⟨second, same, allocated, rfl, rfl⟩, sentinel, _, rfl, rfl⟩ := made
  have new := gAlloc_spec allocated
  exact (new.grows.store new.fresh _).store new.fresh _

theorem queue_round_trip_two : ∃ arena gq other entries, queueNumbers entries = [7, 8] ∧
    HoldsQueue arena gq intSize entries ∧
    QueueRoundTrips arena gq other [7, 8] none (fun _ => 0) fun _ => 0 := by
  have runs : ((unusedArena 40000).initGq intSize |>.bind fun made =>
      made.1.pushAllRead made.2 [7, 8] |>.bind fun filled =>
        filled.initGq intSize |>.bind fun second =>
          second.1.pushAllRead second.2 [7, 8]).isSome = true := by
    decide +kernel
  obtain ⟨last, runs⟩ := Option.isSome_iff_exists.mp runs
  obtain ⟨⟨empty, gq⟩, made, runs⟩ := Option.bind_eq_some_iff.mp runs
  obtain ⟨filled, pushed, runs⟩ := Option.bind_eq_some_iff.mp runs
  obtain ⟨⟨arena, other⟩, second, room⟩ := Option.bind_eq_some_iff.mp runs
  obtain ⟨entries, numbers, held⟩ := (initGq_spec made).2.pushAllRead pushed
  have queue := held.grow (initGq_extends second)
  have nonempty : [] ++ entries ≠ [] := by
    rintro none
    rw [List.nil_append] at none
    rw [none] at numbers
    cases numbers
  refine ⟨arena, gq, other, entries, numbers, queue, ?_⟩
  rw [← numbers] at room ⊢
  exact (queue_round_trip_iff queue (initGq_spec second).2 none (fun _ => 0) (fun _ => 0)
    (Option.isSome_iff_exists.mpr ⟨last, room⟩)).mpr nonempty

theorem empty_queue_gains_a_number : ∃ arena gq other, HoldsQueue arena gq intSize [] ∧
    HoldsQueue arena other intSize [] ∧ ∀ file stale beyond,
      ¬QueueRoundTrips arena gq other [] file stale beyond := by
  have runs : ((unusedArena 40000).initGq intSize |>.bind fun made =>
      made.1.initGq intSize).isSome = true := by
    decide +kernel
  obtain ⟨⟨arena, other⟩, runs⟩ := Option.isSome_iff_exists.mp runs
  obtain ⟨⟨empty, gq⟩, made, second⟩ := Option.bind_eq_some_iff.mp runs
  have queue := (initGq_spec made).2.grow (initGq_extends second)
  have fresh := (initGq_spec second).2
  exact ⟨arena, gq, other, queue, fresh, queue_round_trips_nil fresh⟩

end RoundTrip

end Gaveta
