import Gaveta.Library.Spans
import Gaveta.Memory.Pool

/-! Runs of allocations, releases and stores by the owners of the blocks. -/

namespace Gaveta

open Spans

/-- A block with the address that `g_allocate` returned and the bytes asked for. -/
structure Block where
  address : Nat
  bytes : Nat
deriving DecidableEq

namespace Block

def first (block : Block) : Nat := getHeader block.address / pageSize

def span (block : Block) : Span := { first := block.first, count := numPages block.bytes }

def pages (block : Block) : Finset Nat := block.span.points

@[simp] theorem first_mk (i bytes : Nat) :
    (Block.mk (i * pageSize + allocHeaderSize) bytes).first = i := by
  simp only [first, getHeader, allocHeaderSize, pageSize]
  omega

end Block

/-- A pool with the blocks that were returned and not yet released. -/
structure Heap where
  memory : Memory
  live : List Block

inductive Command where
  | allocate (bytes : Nat)
  | deallocate (block : Block)
  | store (address : Nat) (value : UInt8)

namespace Heap

/-- One call or one store; nothing if the process exits. -/
def act (heap : Heap) : Command → Option Heap
  | .allocate bytes =>
      match gAllocate heap.memory bytes with
      | none => none
      | some (memory, none) => some { heap with memory := memory }
      | some (memory, some address) =>
          some { memory := memory, live := { address := address, bytes := bytes } :: heap.live }
  | .deallocate block =>
      some
        { memory := gDeallocate heap.memory (some block.address)
          live := heap.live.erase block }
  | .store address value =>
      some
        { heap with
          memory := { heap.memory with pool := Function.update heap.memory.pool address value } }

/-- What the callers promise: only live blocks are released, and stores stay inside the bytes that
their owner asked for. -/
def Owns (heap : Heap) : Command → Prop
  | .allocate bytes => bytes < u32Range
  | .deallocate block => block ∈ heap.live
  | .store address _ =>
      ∃ block ∈ heap.live, block.address ≤ address ∧ address < block.address + block.bytes

/-- The heaps that a run from `start` can reach when every command is admitted in its state. -/
inductive Reaches (start : Memory) (admitted : Heap → Command → Prop) : Heap → Prop
  | start : Reaches start admitted { memory := start, live := [] }
  | step {heap after : Heap} {command : Command} (before : Reaches start admitted heap)
      (allowed : admitted heap command) (acts : heap.act command = some after) :
      Reaches start admitted after

end Heap

def freePages (m : Memory) : Finset Nat :=
  (Finset.range m.len).filter fun i => (m.pages i).free = true

/-- Live blocks are disjoint, a page is free when no live block has it, and the headers are whole. -/
structure HeapInvariant (heap : Heap) : Prop where
  len : heap.memory.len = heap.memory.size / pageSize
  small : heap.memory.size < u32Range
  packed : Packed heap.memory.len (heap.live.map Block.span)
  asked : ∀ block ∈ heap.live, 0 < block.bytes
  aligned : ∀ block ∈ heap.live, block.address = block.first * pageSize + allocHeaderSize
  free : ∀ i < heap.memory.len,
    (heap.memory.pages i).free = true ↔ ∀ block ∈ heap.live, i ∉ block.pages
  header : ∀ block ∈ heap.live,
    readU32 heap.memory.pool (block.first * pageSize) = block.first ∧
      readU32 heap.memory.pool (block.first * pageSize + 4) = numPages block.bytes

theorem numPages_room (bytes : Nat) : allocHeaderSize + bytes ≤ numPages bytes * pageSize := by
  simp only [numPages, allocHeaderSize, pageSize]
  omega

namespace HeapInvariant

variable {heap : Heap}

theorem freePages_eq (invariant : HeapInvariant heap) :
    freePages heap.memory = freePoints heap.memory.len (heap.live.map Block.span) := by
  ext i
  simp only [freePages, Finset.mem_filter, Finset.mem_range, mem_freePoints, List.mem_map,
    forall_exists_index, and_imp, forall_apply_eq_imp_iff₂]
  exact and_congr_right fun inside => invariant.free i inside

theorem apart (invariant : HeapInvariant heap) :
    heap.live.Pairwise fun left right => Disjoint left.pages right.pages := by
  have packed := invariant.packed.apart
  rwa [List.pairwise_map] at packed

theorem block_apart (invariant : HeapInvariant heap) {left right : Block}
    (leftMember : left ∈ heap.live) (rightMember : right ∈ heap.live) (different : left ≠ right) :
    Disjoint left.pages right.pages := by
  have symmetric : Std.Symm fun left right : Block => Disjoint left.pages right.pages :=
    ⟨fun _ _ disjoint => disjoint.symm⟩
  exact invariant.apart.forall leftMember rightMember different

theorem block_inside (invariant : HeapInvariant heap) {block : Block}
    (member : block ∈ heap.live) :
    block.first + numPages block.bytes ≤ heap.memory.len :=
  invariant.packed.inside block.span (List.mem_map.mpr ⟨block, member, rfl⟩)

theorem header_outside (invariant : HeapInvariant heap) {owner block : Block} {address : Nat}
    (owned : owner ∈ heap.live) (member : block ∈ heap.live) (lower : owner.address ≤ address)
    (upper : address < owner.address + owner.bytes) :
    address < block.first * pageSize ∨ block.first * pageSize + allocHeaderSize ≤ address := by
  have aligned := invariant.aligned owner owned
  have room := numPages_room owner.bytes
  by_cases same : owner = block
  · subst same
    omega
  · by_contra inside
    have blockPages : block.first ∈ block.pages := by
      have positive := numPages_room block.bytes
      simp only [allocHeaderSize, pageSize] at positive
      simp only [Block.pages, Block.span, Span.mem_points]
      omega
    have ownerPages : block.first ∈ owner.pages := by
      simp only [allocHeaderSize, pageSize] at room aligned inside
      simp only [Block.pages, Block.span, Span.mem_points]
      omega
    exact Finset.disjoint_left.mp (invariant.block_apart owned member same) ownerPages blockPages

theorem repool (invariant : HeapInvariant heap) {owner : Block} {pool : Nat → UInt8}
    (owned : owner ∈ heap.live)
    (same : ∀ i, i < owner.address ∨ owner.address + owner.bytes ≤ i → pool i = heap.memory.pool i) :
    HeapInvariant { heap with memory := { heap.memory with pool := pool } } := by
  refine ⟨invariant.len, invariant.small, invariant.packed, invariant.asked, invariant.aligned,
    invariant.free, fun block member => ?_⟩
  have kept : ∀ i, block.first * pageSize ≤ i → i < block.first * pageSize + allocHeaderSize →
      pool i = heap.memory.pool i := by
    intro i above below
    refine same i ?_
    by_contra inside
    have outside := invariant.header_outside owned member (by omega : owner.address ≤ i) (by omega)
    omega
  simp only [allocHeaderSize] at kept
  have whole := invariant.header block member
  exact ⟨(readU32_congr fun i above below => kept i (by omega) (by omega)).trans whole.1,
    (readU32_congr fun i above below => kept i (by omega) (by omega)).trans whole.2⟩

theorem store (invariant : HeapInvariant heap) {owner : Block} {address : Nat} (value : UInt8)
    (owned : owner ∈ heap.live) (lower : owner.address ≤ address)
    (upper : address < owner.address + owner.bytes) :
    HeapInvariant { heap with
      memory := { heap.memory with pool := Function.update heap.memory.pool address value } } := by
  refine invariant.repool owned fun i outside => ?_
  have other : i ≠ address := by omega
  exact Function.update_of_ne other ..

theorem count_pos (bytes : Nat) : 0 < numPages bytes := by
  have room := numPages_room bytes
  simp only [allocHeaderSize, pageSize] at room
  omega

theorem first_mem_pages (block : Block) : block.first ∈ block.pages := by
  have positive := count_pos block.bytes
  simp only [Block.pages, Block.span, Span.mem_points]
  omega

theorem len_lt (invariant : HeapInvariant heap) : heap.memory.len < 4194304 := by
  have small := invariant.small
  rw [invariant.len]
  simp only [pageSize, u32Range] at small ⊢
  omega

theorem take (invariant : HeapInvariant heap) {bytes i : Nat} (asked : 0 < bytes)
    (inside : i + numPages bytes ≤ heap.memory.len)
    (fits : ∀ j, i ≤ j → j < i + numPages bytes → (heap.memory.pages j).free = true) :
    HeapInvariant
      { memory := takePages heap.memory i (numPages bytes)
        live := { address := i * pageSize + allocHeaderSize, bytes := bytes } :: heap.live } := by
  have bound := invariant.len_lt
  have positive := count_pos bytes
  have outside : ∀ j, i ≤ j → j < i + numPages bytes → ∀ block ∈ heap.live, j ∉ block.pages :=
    fun j lower upper => (invariant.free j (by omega)).mp (fits j lower upper)
  constructor
  · exact invariant.len
  · exact invariant.small
  · rw [List.map_cons]
    refine invariant.packed.cons ?_ ?_
    · intro j member
      simp only [Block.span, Block.first_mk, Span.mem_points] at member
      simp only [mem_freePoints, List.mem_map, forall_exists_index, and_imp,
        forall_apply_eq_imp_iff₂]
      exact ⟨by omega, outside j member.1 member.2⟩
    · simpa [Block.span, takePages] using inside
  · simpa using ⟨asked, invariant.asked⟩
  · simpa using invariant.aligned
  · intro j below
    have own : j ∈ (Block.mk (i * pageSize + allocHeaderSize) bytes).pages ↔
        i ≤ j ∧ j < i + numPages bytes := by
      simp [Block.pages, Block.span]
    simp only [takePages, List.mem_cons, forall_eq_or_imp, own]
    by_cases taken : i ≤ j ∧ j < i + numPages bytes
    · simp [taken]
    · simpa [taken] using invariant.free j below
  · intro block member
    simp only [List.mem_cons] at member
    rcases member with rfl | member
    · simp only [Block.first_mk, takePages]
      constructor
      · refine (readU32_congr fun j above upper => writeU32_outside (by omega)).trans ?_
        exact readU32_writeU32 (by simp only [u32Range]; omega)
      · exact readU32_writeU32 (by simp only [u32Range]; omega)
    · have different : block.first ≠ i := by
        rintro rfl
        exact outside _ le_rfl (by omega) block member (first_mem_pages block)
      have whole := invariant.header block member
      simp only [takePages, pageSize] at whole ⊢
      constructor
      · refine (readU32_congr fun j above upper => ?_).trans whole.1
        rw [writeU32_outside (by omega), writeU32_outside (by omega)]
      · refine (readU32_congr fun j above upper => ?_).trans whole.2
        rw [writeU32_outside (by omega), writeU32_outside (by omega)]

theorem getHeader_live (invariant : HeapInvariant heap) {block : Block}
    (member : block ∈ heap.live) : getHeader block.address = block.first * pageSize := by
  rw [invariant.aligned block member, getHeader, Nat.add_sub_cancel]

theorem gDeallocate_pages (invariant : HeapInvariant heap) {block : Block}
    (member : block ∈ heap.live) (i : Nat) :
    (gDeallocate heap.memory (some block.address)).pages i =
      if i ∈ block.pages then { heap.memory.pages i with free := true }
      else heap.memory.pages i := by
  have bound := invariant.len_lt
  have whole := invariant.header block member
  have inside := invariant.block_inside member
  have stop : (block.first + numPages block.bytes) % u32Range = block.first + numPages block.bytes :=
    Nat.mod_eq_of_lt (by simp only [u32Range]; omega)
  simp only [gDeallocate, semWait, semPost, invariant.getHeader_live member, whole.1, whole.2, stop,
    Block.pages, Block.span, Span.mem_points]

theorem gDeallocate_freePageNum (invariant : HeapInvariant heap) {block : Block}
    (member : block ∈ heap.live) :
    (gDeallocate heap.memory (some block.address)).freePageNum =
      (heap.memory.freePageNum + numPages block.bytes) % u32Range := by
  simp only [gDeallocate, semWait, semPost, invariant.getHeader_live member,
    (invariant.header block member).2]

theorem deallocate (invariant : HeapInvariant heap) {block : Block} {rest : List Block}
    (listed : heap.live.Perm (block :: rest)) :
    HeapInvariant { memory := gDeallocate heap.memory (some block.address), live := rest } := by
  have member : block ∈ heap.live := listed.mem_iff.mpr (by simp)
  have others : ∀ other ∈ rest, other ∈ heap.live := fun other inside =>
    listed.mem_iff.mpr (by simp [inside])
  have packed := invariant.packed.perm (listed.map Block.span)
  have apart := List.pairwise_cons.mp (List.pairwise_map.mp packed.apart)
  constructor
  · exact invariant.len
  · exact invariant.small
  · exact packed.tail
  · exact fun other inside => invariant.asked other (others other inside)
  · exact fun other inside => invariant.aligned other (others other inside)
  · intro i below
    rw [invariant.gDeallocate_pages member]
    by_cases released : i ∈ block.pages
    · simp only [released, ↓reduceIte, true_iff]
      exact fun other inside shared => Finset.disjoint_left.mp (apart.1 other inside) released shared
    · have old := invariant.free i below
      simp only [listed.mem_iff, List.mem_cons, forall_eq_or_imp, released, not_false_eq_true,
        true_and] at old
      simpa only [released, ↓reduceIte] using old
  · exact fun other inside => invariant.header other (others other inside)

theorem card_cons {larger : Heap} {block : Block} (invariant : HeapInvariant heap)
    (extended : HeapInvariant larger) (listed : larger.live.Perm (block :: heap.live))
    (same : larger.memory.len = heap.memory.len) :
    (freePages heap.memory).card = (freePages larger.memory).card + numPages block.bytes := by
  have packed := extended.packed.perm (listed.map Block.span)
  rw [invariant.freePages_eq, extended.freePages_eq, freePoints_perm (listed.map Block.span), same]
  rw [same] at packed
  exact packed.card_tail

end HeapInvariant

/-- A heap whose counter of free pages is too high by `extra`. -/
structure Accounted (heap : Heap) (extra : Nat) : Prop where
  invariant : HeapInvariant heap
  count : heap.memory.freePageNum = (freePages heap.memory).card + extra
  bound : extra ≤ heap.memory.len + 1

theorem gAllocate_served {m : Memory} {bytes : Nat} (served : numPages bytes ≤ m.freePageNum) :
    gAllocate m bytes =
      if bytes = 0 ∨ m.size ≤ bytes then some (m, none)
      else
        (firstFit m.pages m.len (numPages bytes) m.len 0).map fun i =>
          (semPost (takePages (semWait m) i (numPages bytes)),
            some (i * pageSize + allocHeaderSize)) := by
  have none : numPages bytes - m.freePageNum = 0 := by omega
  by_cases refused : bytes = 0 ∨ m.size ≤ bytes
  · rw [gAllocate_refused refused, if_pos refused]
  rw [if_neg refused]
  rw [not_or, not_le] at refused
  simp only [gAllocate_asked refused.1 refused.2, none, replacePages, Bool.true_eq_false,
    ↓reduceIte]

namespace Accounted

variable {heap after : Heap} {extra : Nat}

theorem card_le (m : Memory) : (freePages m).card ≤ m.len := by
  have subset : freePages m ⊆ Finset.range m.len := Finset.filter_subset _ _
  simpa using Finset.card_le_card subset

theorem allocate (accounted : Accounted heap extra) {bytes : Nat}
    (served : numPages bytes ≤ heap.memory.freePageNum)
    (acts : heap.act (.allocate bytes) = some after) : Accounted after extra := by
  rw [Heap.act, gAllocate_served served] at acts
  by_cases refused : bytes = 0 ∨ heap.memory.size ≤ bytes
  · rw [if_pos refused] at acts
    obtain rfl : heap = after := Option.some.inj acts
    exact accounted
  · rw [if_neg refused] at acts
    cases search : firstFit heap.memory.pages heap.memory.len (numPages bytes) heap.memory.len 0 with
    | none => simp [search] at acts
    | some i =>
        obtain ⟨inside, fits⟩ := firstFit_some search
        have taken := accounted.invariant.take (by omega) inside fits
        have card := accounted.invariant.card_cons taken (.refl _) rfl
        rw [search] at acts
        obtain rfl := Option.some.inj acts
        have count := accounted.count
        refine ⟨⟨taken.len, taken.small, taken.packed, taken.asked, taken.aligned, taken.free,
          taken.header⟩, ?_, accounted.bound⟩
        have counter : (semPost (takePages (semWait heap.memory) i (numPages bytes))).freePageNum =
            heap.memory.freePageNum - numPages bytes := rfl
        have same : freePages (semPost (takePages (semWait heap.memory) i (numPages bytes))) =
            freePages (takePages heap.memory i (numPages bytes)) := rfl
        rw [counter, same]
        dsimp only at card
        omega

theorem deallocate (accounted : Accounted heap extra) {block : Block} {rest : List Block}
    (listed : heap.live.Perm (block :: rest)) :
    Accounted { memory := gDeallocate heap.memory (some block.address), live := rest } extra := by
  have released := accounted.invariant.deallocate listed
  have card := released.card_cons accounted.invariant listed rfl
  have small := accounted.invariant.len_lt
  have most := card_le (gDeallocate heap.memory (some block.address))
  have member : block ∈ heap.live := listed.mem_iff.mpr (by simp)
  have count := accounted.count
  have bound := accounted.bound
  have len : (gDeallocate heap.memory (some block.address)).len = heap.memory.len := rfl
  refine ⟨released, ?_, accounted.bound⟩
  rw [accounted.invariant.gDeallocate_freePageNum member, Nat.mod_eq_of_lt] <;>
    simp only [u32Range] <;> dsimp only at * <;> omega

theorem store (accounted : Accounted heap extra) {owner : Block} {address : Nat} (value : UInt8)
    (owned : owner ∈ heap.live) (lower : owner.address ≤ address)
    (upper : address < owner.address + owner.bytes) :
    Accounted { heap with
      memory := { heap.memory with pool := Function.update heap.memory.pool address value } }
      extra :=
  ⟨accounted.invariant.store value owned lower upper, accounted.count, accounted.bound⟩

theorem step (accounted : Accounted heap extra) {command : Command} (owns : heap.Owns command)
    (served : ∀ bytes, command = .allocate bytes → numPages bytes ≤ heap.memory.freePageNum)
    (acts : heap.act command = some after) : Accounted after extra := by
  cases command with
  | allocate bytes => exact accounted.allocate (served bytes rfl) acts
  | deallocate block =>
      obtain rfl := Option.some.inj acts
      exact accounted.deallocate (List.perm_cons_erase owns)
  | store address value =>
      obtain ⟨owner, owned, lower, upper⟩ := owns
      obtain rfl := Option.some.inj acts
      exact accounted.store value owned lower upper

theorem start (hand : Nat) (bytes : Nat → UInt8) {memSize : Nat} (small : memSize < u32Range) :
    Accounted { memory := initMemory hand bytes memSize, live := [] } 0 := by
  refine ⟨⟨rfl, ?_, Packed.nil _, by simp, by simp, ?_, by simp⟩, ?_, Nat.zero_le _⟩
  · simp only [initMemory]
    split_ifs
    · simp only [defaultMemorySize, u32Range]
      omega
    · exact small
  · simp [initMemory]
  · simp [freePages, initMemory]

end Accounted

/-- A request that does not exceed the counter of free pages, or another promised command. -/
def Heap.Served (heap : Heap) (command : Command) : Prop :=
  heap.Owns command ∧
    ∀ bytes, command = .allocate bytes → numPages bytes ≤ heap.memory.freePageNum

structure PoolIntact (heap : Heap) : Prop where
  disjoint : heap.live.Pairwise fun left right => Disjoint left.pages right.pages
  inside : ∀ block ∈ heap.live, block.first + numPages block.bytes ≤ heap.memory.len
  usable : ∀ block ∈ heap.live, block.address = block.first * pageSize + allocHeaderSize ∧
    block.address + block.bytes ≤ (block.first + numPages block.bytes) * pageSize ∧
    block.address + block.bytes ≤ heap.memory.size
  free : ∀ i < heap.memory.len,
    (heap.memory.pages i).free = true ↔ ∀ block ∈ heap.live, i ∉ block.pages
  count : heap.memory.freePageNum = (freePages heap.memory).card
  header : ∀ block ∈ heap.live,
    readU32 heap.memory.pool (block.first * pageSize) = block.first ∧
      readU32 heap.memory.pool (block.first * pageSize + 4) = numPages block.bytes

def releaseAll (m : Memory) (order : List Block) : Memory :=
  order.foldl (fun m block => gDeallocate m (some block.address)) m

theorem Accounted.intact {heap : Heap} (accounted : Accounted heap 0) : PoolIntact heap := by
  have invariant := accounted.invariant
  refine ⟨invariant.apart, fun block member => invariant.block_inside member, ?_, invariant.free,
    accounted.count, invariant.header⟩
  intro block member
  have aligned := invariant.aligned block member
  have room := numPages_room block.bytes
  have inside := invariant.block_inside member
  rw [invariant.len] at inside
  refine ⟨aligned, ?_, ?_⟩ <;> simp only [pageSize, allocHeaderSize] at * <;> omega

theorem Accounted.releaseAll {heap : Heap} {extra : Nat} (accounted : Accounted heap extra)
    {order : List Block} (listed : heap.live.Perm order) :
    Accounted { memory := releaseAll heap.memory order, live := [] } extra ∧
      (releaseAll heap.memory order).len = heap.memory.len := by
  induction order generalizing heap with
  | nil =>
      obtain ⟨memory, live⟩ := heap
      obtain rfl := List.perm_nil.mp listed
      exact ⟨accounted, rfl⟩
  | cons block order ih => exact ih (accounted.deallocate listed) (.refl _)

theorem Heap.Reaches.accounted {hand memSize : Nat} {bytes : Nat → UInt8} {heap : Heap}
    (reached : Heap.Reaches (initMemory hand bytes memSize) Heap.Served heap)
    (small : memSize < u32Range) : Accounted heap 0 := by
  induction reached with
  | start => exact Accounted.start hand bytes small
  | step before allowed acts ih => exact ih.step allowed.1 allowed.2 acts

/-- Every run of served requests, releases of live blocks and owners' stores keeps the pool whole,
and releasing all blocks in any order frees every page. -/
theorem heap_intact (hand : Nat) (bytes : Nat → UInt8) (memSize : Nat) (small : memSize < u32Range)
    (heap : Heap) (reached : Heap.Reaches (initMemory hand bytes memSize) Heap.Served heap) :
    PoolIntact heap ∧
      ∀ order, heap.live.Perm order →
        (∀ i < heap.memory.len, ((releaseAll heap.memory order).pages i).free = true) ∧
          (releaseAll heap.memory order).freePageNum = heap.memory.len := by
  have accounted := reached.accounted small
  refine ⟨accounted.intact, fun order listed => ?_⟩
  obtain ⟨released, len⟩ := accounted.releaseAll listed
  have free : ∀ i < heap.memory.len, ((releaseAll heap.memory order).pages i).free = true := by
    intro i below
    exact (released.invariant.free i (by rwa [← len] at below)).mpr (by simp)
  have every : freePages (releaseAll heap.memory order) = Finset.range heap.memory.len := by
    rw [freePages, len, Finset.filter_true_of_mem]
    exact fun i member => free i (Finset.mem_range.mp member)
  have count := released.count
  rw [every, Finset.card_range] at count
  exact ⟨free, count⟩

def twoBlocks : Heap :=
  let start : Heap := { memory := initMemory 0 (fun _ => 0) 32768, live := [] }
  ((start.act (.allocate 1000)).getD start |>.act (.allocate 5000)).getD start

theorem served_allocate {heap : Heap} {bytes : Nat} (small : bytes < u32Range)
    (enough : numPages bytes ≤ heap.memory.freePageNum) : heap.Served (.allocate bytes) := by
  refine ⟨small, fun other same => ?_⟩
  cases same
  exact enough

theorem twoBlocks_reached :
    Heap.Reaches (initMemory 0 (fun _ => 0) 32768) Heap.Served twoBlocks := by
  have first := @Heap.Reaches.step (initMemory 0 (fun _ => 0) 32768) Heap.Served _ _ _ .start
    (served_allocate (by decide : 1000 < u32Range) (by decide)) rfl
  exact .step first (served_allocate (by decide : 5000 < u32Range) (by decide)) rfl

theorem heap_intact_two : PoolIntact twoBlocks ∧ twoBlocks.live = [⟨1032, 5000⟩, ⟨8, 1000⟩] ∧
    (releaseAll twoBlocks.memory [⟨8, 1000⟩, ⟨1032, 5000⟩]).freePageNum = 32 := by
  obtain ⟨intact, released⟩ :=
    heap_intact 0 (fun _ => 0) 32768 (by decide) twoBlocks twoBlocks_reached
  exact ⟨intact, by decide, (released [⟨8, 1000⟩, ⟨1032, 5000⟩] (by decide)).2⟩

end Gaveta
