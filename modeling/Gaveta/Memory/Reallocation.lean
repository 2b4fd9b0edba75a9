import Gaveta.Memory.FirstFit
import Gaveta.Memory.Lock

/-! What `g_reallocate` does with the contents of the blocks. -/

namespace Gaveta

open Spans

def Block.room (block : Block) : Nat := numPages block.bytes * pageSize - allocHeaderSize

/-- The size that `g_reallocate` asks for, as a natural number. -/
def Block.grown (block : Block) (bytes : Nat) : Nat := block.room + bytes

/-- A request that is refused at once or that the free pages cover. -/
def WithoutReplacement (m : Memory) (bytes : Nat) : Prop :=
  bytes = 0 ∨ m.size ≤ bytes ∨ numPages bytes ≤ m.freePageNum

/-- The contents of a block are in the new one, and its pages are free again. -/
structure Moved (heap : Heap) (block : Block) (bytes : Nat) (after : Memory) (address : Nat) :
    Prop where
  usable : block.grown bytes + allocHeaderSize ≤
    readU32 after.pool (getHeader address + 4) * pageSize
  intact : PoolIntact
    { memory := after
      live := { address := address, bytes := block.grown bytes } :: heap.live.erase block }
  contents : ∀ i < block.room, after.pool (address + i) = heap.memory.pool (block.address + i)
  released : (∀ i ∈ block.pages, (after.pages i).free = true) ∧
    after.freePageNum + numPages (block.grown bytes) =
      heap.memory.freePageNum + numPages block.bytes
  others : ∀ other ∈ heap.live, other ≠ block → ∀ i, other.first * pageSize ≤ i →
    i < (other.first + numPages other.bytes) * pageSize → after.pool i = heap.memory.pool i

structure Untouched (m after : Memory) : Prop where
  pages : after.pages = m.pages
  count : after.freePageNum = m.freePageNum
  pool : after.pool = m.pool

def ReallocPreserves (heap : Heap) (block : Block) (bytes : Nat) : Prop :=
  ∀ after answer, gReallocate heap.memory (some block.address) bytes = some (after, answer) →
    match answer with
    | some address => Moved heap block bytes after address
    | none => Untouched heap.memory after

/-- The new size does not wrap around, or what is left of it gets no block. -/
def ReallocServed (heap : Heap) (block : Block) (bytes : Nat) : Prop :=
  block.grown bytes < u32Range ∨ block.grown bytes % u32Range = 0 ∨
    ∀ i, ¬FreeRun heap.memory (numPages (block.grown bytes % u32Range)) i

theorem Accounted.repool {heap : Heap} {extra : Nat} (accounted : Accounted heap extra)
    {owner : Block} (pool : Nat → UInt8) (owned : owner ∈ heap.live)
    (same : ∀ i, i < owner.address ∨ owner.address + owner.bytes ≤ i → pool i = heap.memory.pool i) :
    Accounted { heap with memory := { heap.memory with pool := pool } } extra :=
  ⟨accounted.invariant.repool owned same, accounted.count, accounted.bound⟩

theorem Block.room_add (block : Block) :
    block.room + allocHeaderSize = numPages block.bytes * pageSize := by
  have room := numPages_room block.bytes
  simp only [Block.room]
  omega

namespace HeapInvariant

variable {heap : Heap} {block other : Block}

theorem room_lt (invariant : HeapInvariant heap) (member : block ∈ heap.live) :
    block.room + allocHeaderSize < u32Range := by
  have inside := invariant.block_inside member
  have bound := invariant.len_lt
  have room := block.room_add
  simp only [pageSize, u32Range] at room ⊢
  omega

theorem regionRoom_eq (invariant : HeapInvariant heap) (member : block ∈ heap.live) :
    regionRoom heap.memory block.address = block.room := by
  have small := invariant.room_lt member
  have room := block.room_add
  rw [regionRoom, invariant.getHeader_live member, (invariant.header block member).2, ← room]
  have wraps : block.room + allocHeaderSize + u32Range - allocHeaderSize =
      block.room + u32Range := by omega
  rw [wraps, Nat.add_mod_right, Nat.mod_eq_of_lt (by omega)]

theorem reallocateSize_eq (invariant : HeapInvariant heap) (member : block ∈ heap.live)
    (bytes : Nat) : reallocateSize heap.memory block.address bytes =
      block.grown bytes % u32Range := by
  rw [reallocateSize, invariant.regionRoom_eq member, Block.grown]

theorem bytes_apart (invariant : HeapInvariant heap) (member : block ∈ heap.live)
    (inside : other ∈ heap.live) (different : other ≠ block) {i : Nat}
    (lower : other.first * pageSize ≤ i)
    (upper : i < (other.first + numPages other.bytes) * pageSize) :
    i < block.first * pageSize ∨ (block.first + numPages block.bytes) * pageSize ≤ i := by
  by_contra shared
  have apart := Finset.disjoint_left.mp (invariant.block_apart inside member different)
  refine @apart (i / pageSize) ?_ ?_ <;>
    simp only [Block.pages, Block.span, Span.mem_points, pageSize] at * <;> omega

end HeapInvariant

section Move

variable {heap : Heap} {block : Block} {bytes : Nat}

theorem gAllocate_cases {m : Memory} {size : Nat} (served : WithoutReplacement m size) :
    gAllocate m size = some (m, none) ∧ (size = 0 ∨ m.size ≤ size) ∨
      gAllocate m size = none ∧ (∀ i, ¬FreeRun m (numPages size) i) ∨
      ∃ i, gAllocate m size = some (semPost (takePages (semWait m) i (numPages size)),
        some (i * pageSize + allocHeaderSize)) ∧ numPages size ≤ m.freePageNum ∧
          FreeRun m (numPages size) i ∧ 0 < size := by
  by_cases refused : size = 0 ∨ m.size ≤ size
  · exact Or.inl ⟨gAllocate_refused refused, refused⟩
  have enough : numPages size ≤ m.freePageNum := by
    rcases served with zero | large | enough
    · exact absurd (Or.inl zero) refused
    · exact absurd (Or.inr large) refused
    · exact enough
  rw [gAllocate_served enough, if_neg refused]
  cases search : firstFit m.pages m.len (numPages size) m.len 0 with
  | none =>
      exact Or.inr (Or.inl ⟨rfl, (firstFit_missing (HeapInvariant.count_pos size)).mp search⟩)
  | some i =>
      obtain ⟨inside, free⟩ := firstFit_some search
      exact Or.inr (Or.inr ⟨i, rfl, enough, ⟨inside, free⟩, by omega⟩)

theorem copyBytes_inside {pool : Nat → UInt8} {target source count i : Nat} (less : i < count) :
    copyBytes pool target source count (target + i) = pool (source + i) := by
  rw [copyBytes, if_pos (by omega), Nat.add_sub_cancel_left]

theorem copyBytes_outside {pool : Nat → UInt8} {target source count i : Nat}
    (outside : i < target ∨ target + count ≤ i) : copyBytes pool target source count i = pool i := by
  rw [copyBytes, if_neg (by omega)]

theorem header_le (i : Nat) : i * pageSize + allocHeaderSize ≤ (i + 1) * pageSize := by
  rw [Nat.add_mul]
  exact Nat.add_le_add_left (by decide) _

theorem takePages_pool {m : Memory} {i count j : Nat}
    (outside : j < i * pageSize ∨ (i + 1) * pageSize ≤ j) :
    (takePages m i count).pool j = m.pool j := by
  have room := header_le i
  rw [allocHeaderSize] at room
  rw [takePages]
  dsimp only
  rw [writeU32_outside (by omega), writeU32_outside (by omega)]

theorem HeapInvariant.bytes_end (invariant : HeapInvariant heap) (member : block ∈ heap.live) :
    block.address + block.bytes ≤ (block.first + numPages block.bytes) * pageSize := by
  have aligned := invariant.aligned block member
  have room := numPages_room block.bytes
  rw [Nat.add_mul]
  omega

variable {after : Memory} {new other : Block}

theorem Accounted.older (taken : Accounted { memory := after, live := new :: heap.live } 0)
    (frame : ∀ j, j < new.first * pageSize ∨ (new.first + 1) * pageSize ≤ j →
      after.pool j = heap.memory.pool j) (member : other ∈ heap.live) {j : Nat}
    (lower : other.first * pageSize ≤ j)
    (upper : j < (other.first + numPages other.bytes) * pageSize) :
    after.pool j = heap.memory.pool j ∧ (j < new.address ∨ new.address + new.bytes ≤ j) := by
  have newMember : new ∈ new :: heap.live := List.mem_cons_self
  have different : other ≠ new := by
    rintro rfl
    have apart := (List.pairwise_cons.mp taken.invariant.apart).1 other member
    have own := HeapInvariant.first_mem_pages other
    exact Finset.disjoint_left.mp apart own own
  have apart := taken.invariant.bytes_apart newMember (List.mem_cons_of_mem _ member) different
    lower upper
  have aligned := taken.invariant.aligned new newMember
  have ends := taken.invariant.bytes_end newMember
  have positive : (new.first + 1) * pageSize ≤ (new.first + numPages new.bytes) * pageSize :=
    Nat.mul_le_mul_right _ (Nat.add_le_add_left (HeapInvariant.count_pos new.bytes) _)
  exact ⟨frame j (by omega), by omega⟩

theorem Accounted.regrown {address : Nat} (member : block ∈ heap.live)
    (taken : Accounted
      { memory := after, live := ⟨address, block.grown bytes⟩ :: heap.live } 0) :
    Accounted
      { memory := gDeallocate
          { after with pool := copyBytes after.pool address block.address block.room }
          (some block.address)
        live := ⟨address, block.grown bytes⟩ :: heap.live.erase block } 0 := by
  have room : block.room ≤ block.grown bytes := Nat.le_add_right ..
  have copied := taken.repool
    (copyBytes after.pool address block.address block.room) List.mem_cons_self
    fun j outside => copyBytes_outside (by dsimp only at outside; omega)
  exact copied.deallocate (((List.perm_cons_erase member).cons _).trans (.swap ..))

theorem Accounted.moved {address : Nat} (member : block ∈ heap.live)
    (taken : Accounted
      { memory := after, live := ⟨address, block.grown bytes⟩ :: heap.live } 0)
    (frame : ∀ j, j < (Block.mk address (block.grown bytes)).first * pageSize ∨
      ((Block.mk address (block.grown bytes)).first + 1) * pageSize ≤ j →
        after.pool j = heap.memory.pool j)
    (count : after.freePageNum + numPages (block.grown bytes) = heap.memory.freePageNum)
    (invariant : HeapInvariant heap) :
    Moved heap block bytes
      (gDeallocate { after with pool := copyBytes after.pool address block.address block.room }
        (some block.address)) address := by
  have newMember : (⟨address, block.grown bytes⟩ : Block) ∈
      ⟨address, block.grown bytes⟩ :: heap.live := List.mem_cons_self
  have blockMember : block ∈ ⟨address, block.grown bytes⟩ :: heap.live :=
    List.mem_cons_of_mem _ member
  have room : block.room ≤ block.grown bytes := Nat.le_add_right ..
  have copied := taken.repool
    (copyBytes after.pool address block.address block.room) newMember
    fun j outside => copyBytes_outside (by dsimp only at outside; omega)
  have released := taken.regrown member
  have stays := List.mem_cons_self (a := (⟨address, block.grown bytes⟩ : Block))
    (l := heap.live.erase block)
  have old : ∀ other ∈ heap.live, ∀ j, other.first * pageSize ≤ j →
      j < (other.first + numPages other.bytes) * pageSize →
        after.pool j = heap.memory.pool j ∧
          copyBytes after.pool address block.address block.room j = heap.memory.pool j := by
    intro other inside j lower upper
    obtain ⟨same, outside⟩ := taken.older frame inside lower upper
    dsimp only at outside
    exact ⟨same, by rw [copyBytes_outside (by omega), same]⟩
  refine ⟨?_, released.intact, fun i less => ?_, ⟨fun i own => ?_, ?_⟩,
    fun other inside _ j lower upper => (old other inside j lower upper).2⟩
  · have header := (released.invariant.header _ stays).2
    have atHeader := released.invariant.getHeader_live stays
    dsimp only at header atHeader
    rw [atHeader, header]
    have whole := numPages_room (block.grown bytes)
    omega
  · have aligned := invariant.aligned block member
    have ends := block.room_add
    have total : (block.first + numPages block.bytes) * pageSize =
        block.first * pageSize + (block.room + allocHeaderSize) := by rw [Nat.add_mul, ends]
    have same := (old block member (block.address + i) (by omega) (by omega)).1
    rw [← same]
    exact copyBytes_inside less
  · rw [copied.invariant.gDeallocate_pages blockMember, if_pos own]
  · rw [copied.invariant.gDeallocate_freePageNum blockMember]
    have most := Accounted.card_le after
    have number := taken.count
    have bound := taken.invariant.len_lt
    have inside := taken.invariant.block_inside blockMember
    dsimp only at most number bound inside ⊢
    rw [Nat.mod_eq_of_lt (by simp only [u32Range]; omega)]
    omega

theorem Accounted.taken (accounted : Accounted heap 0) {size i : Nat}
    (search : gAllocate heap.memory size =
      some (semPost (takePages (semWait heap.memory) i (numPages size)),
        some (i * pageSize + allocHeaderSize)))
    (enough : numPages size ≤ heap.memory.freePageNum) :
    Accounted
      { memory := semPost (takePages (semWait heap.memory) i (numPages size))
        live := ⟨i * pageSize + allocHeaderSize, size⟩ :: heap.live } 0 :=
  accounted.allocate enough (by rw [Heap.act, search])

theorem FreeRun.not_large {m : Memory} {size i : Nat} (run : FreeRun m (numPages size) i)
    (len : m.len = m.size / pageSize) : size < m.size := by
  have inside := run.inside
  have room := numPages_room size
  simp only [pageSize, allocHeaderSize] at len room
  omega

theorem Accounted.wrapped (taken : Accounted { memory := after, live := new :: heap.live } 0)
    (wraps : u32Range ≤ block.grown bytes) (source count : Nat) (region : Option Nat) :
    ¬Moved heap block bytes
      (gDeallocate { after with pool := copyBytes after.pool new.address source count } region)
      new.address := by
  intro moved
  have newMember : new ∈ new :: heap.live := List.mem_cons_self
  have header := (taken.invariant.header new newMember).2
  have aligned := taken.invariant.aligned new newMember
  have inside := taken.invariant.block_inside newMember
  have bound := taken.invariant.len_lt
  have usable := moved.usable
  have pool : (gDeallocate
      { after with pool := copyBytes after.pool new.address source count } region).pool =
      copyBytes after.pool new.address source count := by cases region <;> rfl
  have kept : readU32 (copyBytes after.pool new.address source count)
      (new.first * pageSize + 4) = numPages new.bytes := by
    refine (readU32_congr fun j lower upper => copyBytes_outside ?_).trans header
    rw [aligned, allocHeaderSize]
    omega
  rw [pool, taken.invariant.getHeader_live newMember, kept] at usable
  have fits : numPages new.bytes * pageSize < u32Range := by
    dsimp only at inside bound
    simp only [pageSize, u32Range]
    omega
  omega

/-- A block grown by `g_reallocate` keeps its contents exactly when the new size does not wrap
around, or wraps around to a size that gets no block. -/
theorem realloc_preserves_iff (heap : Heap) (block : Block) (bytes : Nat)
    (accounted : Accounted heap 0) (member : block ∈ heap.live)
    (served : WithoutReplacement heap.memory
      (reallocateSize heap.memory block.address bytes)) :
    ReallocPreserves heap block bytes ↔ ReallocServed heap block bytes := by
  have invariant := accounted.invariant
  have same := invariant.reallocateSize_eq member bytes
  rw [same] at served
  rcases gAllocate_cases served with ⟨search, refused⟩ | ⟨search, none⟩ |
    ⟨i, search, enough, run, asked⟩
  · have untouched : ReallocPreserves heap block bytes := by
      intro after answer result
      rw [gReallocate, same, search] at result
      cases result
      exact ⟨rfl, rfl, rfl⟩
    refine iff_of_true untouched ?_
    rcases refused with zero | large
    · exact Or.inr (Or.inl zero)
    · exact Or.inr (Or.inr fun i run => (run.not_large invariant.len).not_ge large)
  · refine iff_of_true (fun after answer result => ?_) (Or.inr (Or.inr none))
    rw [gReallocate, same, search] at result
    cases result
  · have taken := accounted.taken search enough
    have result : gReallocate heap.memory (some block.address) bytes =
        (gAllocate heap.memory (block.grown bytes % u32Range)).map
          (moveRegion heap.memory block.address) := by rw [gReallocate, same]
    rw [search, Option.map_some, moveRegion] at result
    by_cases wraps : block.grown bytes < u32Range
    · refine iff_of_true (fun after answer found => ?_) (Or.inl wraps)
      rw [Nat.mod_eq_of_lt wraps] at taken enough result
      rw [result, invariant.regionRoom_eq member] at found
      cases found
      refine taken.moved member (fun j outside => ?_) (Nat.sub_add_cancel enough) invariant
      rw [Block.first_mk] at outside
      exact takePages_pool outside
    · refine iff_of_false (fun preserves => ?_) ?_
      · exact taken.wrapped (Nat.le_of_not_lt wraps) _ _ _ (preserves _ _ result)
      · rintro (fits | zero | none)
        · exact wraps fits
        · omega
        · exact none i run

end Move

theorem realloc_preserves_two : ReallocPreserves twoBlocks ⟨8, 1000⟩ 2000 ∧
    (gReallocate twoBlocks.memory (some 8) 2000).map Prod.snd = some (some 6152) := by
  refine ⟨(realloc_preserves_iff twoBlocks ⟨8, 1000⟩ 2000 (twoBlocks_reached.accounted (by decide))
    (by decide) (Or.inr (Or.inr ?_))).mpr (Or.inl (by decide)), ?_⟩
  · decide +kernel
  · decide +kernel

/-- 1016 and 4294966296 bytes are 16 in a `u32`: the block that is to hold them has one page. -/
theorem realloc_wraps : ¬∀ (heap : Heap) (block : Block) (bytes : Nat), Accounted heap 0 →
    block ∈ heap.live → bytes < u32Range →
    WithoutReplacement heap.memory (reallocateSize heap.memory block.address bytes) →
      ReallocPreserves heap block bytes := by
  intro preserves
  have moved := preserves twoBlocks ⟨8, 1000⟩ 4294966296 (twoBlocks_reached.accounted (by decide))
    (by decide) (by decide) (Or.inr (Or.inr (by decide +kernel)))
  have returned : (gReallocate twoBlocks.memory (some 8) 4294966296).map
      (fun result => (result.2, readU32 result.1.pool 6148)) = some (some 6152, 1) := by
    decide +kernel
  obtain ⟨⟨after, answer⟩, found, result⟩ := Option.map_eq_some_iff.mp returned
  obtain ⟨same, header⟩ := Prod.mk.inj result
  dsimp only at same header
  rw [same] at found
  have usable := (moved after _ found).usable
  have atHeader : getHeader 6152 + 4 = 6148 := by decide
  rw [atHeader, header] at usable
  revert usable
  decide

end Gaveta
