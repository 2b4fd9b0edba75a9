import Gaveta.Library.SpanGaps
import Gaveta.Memory.FreeQuery

/-! Which requests a pool with a given number of live blocks always serves. -/

namespace Gaveta

open Spans

namespace Accounted

variable {heap : Heap}

theorem pages_sum (accounted : Accounted heap 0) :
    heap.memory.freePageNum + (heap.live.map fun block => numPages block.bytes).sum =
      heap.memory.len := by
  have total := accounted.invariant.packed.card_sum
  rw [← accounted.invariant.freePages_eq, List.map_map] at total
  have count := accounted.count
  have spans : (Span.count ∘ Block.span) = fun block : Block => numPages block.bytes := rfl
  rw [spans] at total
  omega

theorem search_fails (accounted : Accounted heap 0) {bytes : Nat}
    (search : firstFit heap.memory.pages heap.memory.len (numPages bytes) heap.memory.len 0 = none) :
    heap.memory.freePageNum ≤ (numPages bytes - 1) * (heap.live.length + 1) := by
  have positive := HeapInvariant.count_pos bytes
  have noRun : NoRun heap.memory.len (heap.live.map Block.span) (numPages bytes - 1) := by
    intro first
    rw [Nat.sub_add_cancel positive]
    by_cases inside : first + numPages bytes ≤ heap.memory.len
    · obtain ⟨point, lower, upper, taken⟩ :=
        firstFit_none search (by omega) (Nat.zero_le first) inside positive
      refine ⟨point, lower, upper, fun free => ?_⟩
      rw [← accounted.invariant.freePages_eq, freePages, Finset.mem_filter] at free
      rw [taken] at free
      cases free.2
    · refine ⟨first + (numPages bytes - 1), by omega, by omega, fun free => ?_⟩
      have below := ((mem_freePoints ..).mp free).1
      omega
  have few := card_freePoints_le noRun
  rw [← accounted.invariant.freePages_eq, List.length_map] at few
  have count := accounted.count
  omega

theorem serves (accounted : Accounted heap 0) {bytes : Nat} (asked : 0 < bytes)
    (fits : bytes < heap.memory.size)
    (room : (numPages bytes - 1) * (heap.live.length + 1) < heap.memory.freePageNum) :
    ∃ memory address, gAllocate heap.memory bytes = some (memory, some address) := by
  have positive := HeapInvariant.count_pos bytes
  have enough : numPages bytes ≤ heap.memory.freePageNum := by
    have larger : numPages bytes - 1 ≤ (numPages bytes - 1) * (heap.live.length + 1) :=
      Nat.le_mul_of_pos_right _ (Nat.succ_pos _)
    omega
  have accepted : ¬(bytes = 0 ∨ heap.memory.size ≤ bytes) := by omega
  rw [gAllocate_served enough, if_neg accepted]
  cases search : firstFit heap.memory.pages heap.memory.len (numPages bytes) heap.memory.len 0 with
  | none =>
      have few := accounted.search_fails search
      omega
  | some i => exact ⟨_, _, rfl⟩

end Accounted

/-- In every heap that served commands reach, `g_allocate` returns a block when the pages that are
free are more than the gaps between the live blocks can hold without a long enough run. -/
theorem gAllocate_fragmentation (hand : Nat) (bytes : Nat → UInt8) (memSize : Nat)
    (small : memSize < u32Range) (heap : Heap)
    (reached : Heap.Reaches (initMemory hand bytes memSize) Heap.Served heap) (asked : Nat)
    (positive : 0 < asked) (fits : asked < heap.memory.size)
    (room : (numPages asked - 1) * (heap.live.length + 1) < heap.memory.freePageNum) :
    ∃ memory address, gAllocate heap.memory asked = some (memory, some address) :=
  (reached.accounted small).serves positive fits room

theorem gAllocate_fragmentation_two : ∃ memory address,
    gAllocate twoBlocks.memory 8000 = some (memory, some address) :=
  gAllocate_fragmentation 0 (fun _ => 0) 32768 (by decide) twoBlocks twoBlocks_reached 8000
    (by decide) (by decide) (by decide)

/-- What a client promises that keeps at most `most` blocks, none of more than `count` pages. -/
def Heap.Modest (most count : Nat) (heap : Heap) (command : Command) : Prop :=
  heap.Owns command ∧
    ∀ bytes, command = .allocate bytes →
      0 < bytes ∧ numPages bytes ≤ count ∧ heap.live.length < most

structure ModestHeap (most count : Nat) (heap : Heap) : Prop where
  accounted : Accounted heap 0
  few : heap.live.length ≤ most
  short : ∀ block ∈ heap.live, numPages block.bytes ≤ count

namespace ModestHeap

variable {most count bytes : Nat} {heap after : Heap}

theorem pages_le (modest : ModestHeap most count heap) :
    (heap.live.map fun block => numPages block.bytes).sum ≤ heap.live.length * count := by
  have bounded := List.sum_le_card_nsmul (heap.live.map fun block => numPages block.bytes) count
    (by simpa using modest.short)
  simpa using bounded

theorem room (modest : ModestHeap most count heap) (free : heap.live.length < most)
    (asked : numPages bytes ≤ count)
    (large : most * (count - 1) + (most - 1) * count < heap.memory.len) :
    (numPages bytes - 1) * (heap.live.length + 1) < heap.memory.freePageNum := by
  have total := modest.accounted.pages_sum
  have live : heap.live.length * count ≤ (most - 1) * count := Nat.mul_le_mul_right count (by omega)
  have gaps : (numPages bytes - 1) * (heap.live.length + 1) ≤ most * (count - 1) := by
    rw [Nat.mul_comm]
    exact Nat.mul_le_mul (by omega) (by omega)
  have taken := modest.pages_le
  omega

theorem fits (modest : ModestHeap most count heap) (free : heap.live.length < most)
    (asked : numPages bytes ≤ count)
    (large : most * (count - 1) + (most - 1) * count < heap.memory.len) :
    bytes < heap.memory.size := by
  have one : count - 1 ≤ most * (count - 1) := Nat.le_mul_of_pos_left _ (by omega)
  have len := modest.accounted.invariant.len
  have bound := numPages_room bytes
  simp only [allocHeaderSize, pageSize] at bound len
  omega

theorem served (modest : ModestHeap most count heap)
    (large : most * (count - 1) + (most - 1) * count < heap.memory.len)
    (allowed : Heap.Modest most count heap (.allocate bytes)) :
    ∃ memory address, gAllocate heap.memory bytes = some (memory, some address) := by
  obtain ⟨positive, asked, free⟩ := allowed.2 bytes rfl
  exact modest.accounted.serves positive (modest.fits free asked large)
    (modest.room free asked large)

theorem step (modest : ModestHeap most count heap) {command : Command}
    (large : most * (count - 1) + (most - 1) * count < heap.memory.len)
    (allowed : Heap.Modest most count heap command) (acts : heap.act command = some after) :
    ModestHeap most count after := by
  have served : ∀ bytes, command = .allocate bytes → numPages bytes ≤ heap.memory.freePageNum := by
    rintro bytes rfl
    obtain ⟨_, asked, free⟩ := allowed.2 bytes rfl
    have room := modest.room free asked large
    have one : numPages bytes - 1 ≤ (numPages bytes - 1) * (heap.live.length + 1) :=
      Nat.le_mul_of_pos_right _ (Nat.succ_pos _)
    omega
  have accounted := modest.accounted.step allowed.1 served acts
  cases command with
  | allocate bytes =>
      obtain ⟨_, asked, free⟩ := allowed.2 bytes rfl
      obtain ⟨memory, address, returned⟩ := modest.served large allowed
      rw [Heap.act, returned] at acts
      obtain rfl := Option.some.inj acts
      refine ⟨accounted, free, fun block member => ?_⟩
      rcases List.mem_cons.mp member with rfl | member
      · exact asked
      · exact modest.short block member
  | deallocate block =>
      obtain rfl := Option.some.inj acts
      have fewer := List.length_erase_le (a := block) (l := heap.live)
      exact ⟨accounted, fewer.trans modest.few, fun other member =>
        modest.short other (List.mem_of_mem_erase member)⟩
  | store address value =>
      obtain rfl := Option.some.inj acts
      exact ⟨accounted, modest.few, modest.short⟩

theorem start {hand memSize : Nat} {bytes : Nat → UInt8} (small : memSize < u32Range) :
    ModestHeap most count { memory := initMemory hand bytes memSize, live := [] } :=
  ⟨Accounted.start hand bytes small, Nat.zero_le most, by simp⟩

end ModestHeap

theorem Heap.Reaches.owned {start : Memory} {most count : Nat} {heap : Heap}
    (reached : Heap.Reaches start (Heap.Modest most count) heap) :
    Heap.Reaches start Heap.Owns heap := by
  induction reached with
  | start => exact .start
  | step before allowed acts ih => exact ih.step allowed.1 acts

theorem Heap.Reaches.modest {hand memSize most count : Nat} {bytes : Nat → UInt8} {heap : Heap}
    (reached : Heap.Reaches (initMemory hand bytes memSize) (Heap.Modest most count) heap)
    (small : memSize < u32Range)
    (large : most * (count - 1) + (most - 1) * count < (initMemory hand bytes memSize).len) :
    ModestHeap most count heap := by
  induction reached with
  | start => exact ModestHeap.start small
  | step before allowed acts ih =>
      refine ih.step ?_ allowed acts
      rwa [before.owned.placed.1]

/-- A client that keeps few and short blocks is never refused and never ends the process, whatever
the order of its requests and releases. -/
theorem modest_client_served (hand : Nat) (bytes : Nat → UInt8) (memSize most count : Nat)
    (small : memSize < u32Range)
    (large : most * (count - 1) + (most - 1) * count < (initMemory hand bytes memSize).len)
    (heap : Heap)
    (reached : Heap.Reaches (initMemory hand bytes memSize) (Heap.Modest most count) heap) :
    PoolIntact heap ∧
      ∀ asked, Heap.Modest most count heap (.allocate asked) →
        ∃ memory address, gAllocate heap.memory asked = some (memory, some address) := by
  have modest := reached.modest small large
  refine ⟨modest.accounted.intact, fun asked allowed => modest.served ?_ allowed⟩
  rwa [reached.owned.placed.1]

theorem modest_allocate {heap : Heap} {most count bytes : Nat} (small : bytes < u32Range)
    (asked : 0 < bytes ∧ numPages bytes ≤ count ∧ heap.live.length < most) :
    Heap.Modest most count heap (.allocate bytes) := by
  refine ⟨small, fun other same => ?_⟩
  cases same
  exact asked

theorem modest_client_served_two : ∃ memory address,
    gAllocate twoBlocks.memory 3000 = some (memory, some address) := by
  have first := @Heap.Reaches.step (initMemory 0 (fun _ => 0) 32768) (Heap.Modest 3 5) _ _ _ .start
    (modest_allocate (by decide : 1000 < u32Range) (by decide)) rfl
  have second := first.step (modest_allocate (by decide : 5000 < u32Range) (by decide))
    (by rfl : _ = some twoBlocks)
  exact (modest_client_served 0 (fun _ => 0) 32768 3 5 (by decide) (by decide) twoBlocks second).2
    3000 (modest_allocate (by decide) (by decide))

end Gaveta
