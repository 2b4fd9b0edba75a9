import Gaveta.Memory.Heap

/-! What `is_mem_free` reads, against the pages that it is asked about. -/

namespace Gaveta

open Spans

def pageEntrySize : Nat := 24

def freeOffset : Nat := 16

/-- The address of `p->free` in round `i`.  The cast to `page *` comes before the sum, which counts
in entries of the page table from the start of the pool. -/
def freeFieldAt (i : Nat) : Nat := i * pageSize % u32Range * pageEntrySize + freeOffset

/-- What compiled code makes of a byte that it reads as a `bool`; only 0 and 1 are values of one. -/
structure BoolReading where
  read : UInt8 → Bool
  zero : read 0 = false
  one : read 1 = true

/-- Code that is not optimised inverts the lowest bit and compares the byte with zero. -/
def BoolReading.plain : BoolReading where
  read byte := byte = 1
  zero := by decide
  one := by decide

variable (bool : BoolReading)

/-- The loop of `is_mem_free` from round `i` on; nothing if it reads behind the pool. -/
def readFree (m : Memory) : Nat → Nat → Option Bool
  | 0, _ => some true
  | rest + 1, i =>
      if m.size ≤ freeFieldAt i then none
      else if !bool.read (m.pool (freeFieldAt i)) then some false
      else readFree m rest (i + 1)

def isMemFree (m : Memory) : Option Nat → Option (Memory × Bool)
  | none => some (m, true)
  | some ptr =>
      let m := semWait m
      (readFree bool m (readU32 m.pool (getHeader ptr + 4)) 0).map fun isFree => (semPost m, isFree)

variable {bool}

theorem readFree_true {m : Memory} {rest i : Nat} (reads : readFree bool m rest i = some true) :
    ∀ j, i ≤ j → j < i + rest →
      freeFieldAt j < m.size ∧ bool.read (m.pool (freeFieldAt j)) = true := by
  induction rest generalizing i with
  | zero => omega
  | succ rest ih =>
      rw [readFree] at reads
      split_ifs at reads with outside unset
      · cases reads
      · intro j lower upper
        rcases Nat.eq_or_lt_of_le lower with rfl | later
        · exact ⟨by omega, by simpa using unset⟩
        · exact ih reads j later (by omega)

theorem readFree_all {m : Memory} {rest i : Nat}
    (set : ∀ j, i ≤ j → j < i + rest →
      freeFieldAt j < m.size ∧ bool.read (m.pool (freeFieldAt j)) = true) :
    readFree bool m rest i = some true := by
  induction rest generalizing i with
  | zero => rfl
  | succ rest ih =>
      obtain ⟨inside, free⟩ := set i le_rfl (by omega)
      rw [readFree, if_neg (by omega), if_neg (by simp [free])]
      exact ih fun j lower upper => set j (by omega) (by omega)

theorem readFree_false {m : Memory} {rest i : Nat} (reads : readFree bool m rest i = some false) :
    ∃ j, i ≤ j ∧ j < i + rest ∧ freeFieldAt j < m.size ∧
      bool.read (m.pool (freeFieldAt j)) = false := by
  induction rest generalizing i with
  | zero => cases reads
  | succ rest ih =>
      rw [readFree] at reads
      split_ifs at reads with outside unset
      · exact ⟨i, le_rfl, by omega, by omega, by simpa using unset⟩
      · obtain ⟨j, lower, upper, found⟩ := ih reads
        exact ⟨j, by omega, by omega, found⟩

theorem readFree_stop {m : Memory} {rest i j : Nat} (lower : i ≤ j) (upper : j < i + rest)
    (inside : ∀ k, k ≤ j → freeFieldAt k < m.size)
    (unset : bool.read (m.pool (freeFieldAt j)) = false) :
    readFree bool m rest i = some false := by
  induction rest generalizing i with
  | zero => omega
  | succ rest ih =>
      have here := inside i lower
      rw [readFree, if_neg (by omega)]
      split_ifs with first
      · rfl
      · have later : i ≠ j := by
          rintro rfl
          exact first (by simp [unset])
        exact ih (by omega) (by omega)

theorem freeFieldAt_mod (i : Nat) : freeFieldAt i % pageSize = 16 := by
  simp only [freeFieldAt, pageSize, u32Range, pageEntrySize, freeOffset]
  omega

theorem freeFieldAt_mono {i j : Nat} (order : i ≤ j) (small : j < 4194304) :
    freeFieldAt i ≤ freeFieldAt j := by
  simp only [freeFieldAt, pageSize, u32Range, pageEntrySize, freeOffset]
  omega

namespace Heap

def IsUserByte (heap : Heap) (address : Nat) : Prop :=
  ∃ owner ∈ heap.live, owner.address ≤ address ∧ address < owner.address + owner.bytes

instance (heap : Heap) : DecidablePred heap.IsUserByte := fun address =>
  inferInstanceAs (Decidable (∃ owner ∈ heap.live, owner.address ≤ address ∧
    address < owner.address + owner.bytes))

/-- The runs in which `g_allocate` has returned the block, released since then or not. -/
inductive Issued (start : Memory) (block : Block) : Heap → Prop
  | returned {heap : Heap} (reached : Reaches start Owns heap) (live : block ∈ heap.live) :
      Issued start block heap
  | step {heap after : Heap} {command : Command} (before : Issued start block heap)
      (allowed : heap.Owns command) (acts : heap.act command = some after) :
      Issued start block after

end Heap

theorem replacePages_len (missing : Nat) (m : Memory) :
    (replacePages missing m).1.len = m.len := by
  induction missing generalizing m with
  | zero => rfl
  | succ missing ih =>
      rw [replacePages]
      split
      · rfl
      · exact ih _

theorem gAllocate_len {m after : Memory} {bytes : Nat} {result : Option Nat}
    (allocates : gAllocate m bytes = some (after, result)) :
    after.len = m.len ∧ ∀ address, result = some address →
      ∃ i, address = i * pageSize + allocHeaderSize ∧ i + numPages bytes ≤ m.len := by
  have len := replacePages_len (numPages bytes - m.freePageNum) m
  by_cases refused : bytes = 0 ∨ m.size ≤ bytes
  · rw [gAllocate_refused refused] at allocates
    cases allocates
    exact ⟨rfl, by simp⟩
  rw [not_or, not_le] at refused
  rw [gAllocate_asked refused.1 refused.2] at allocates
  dsimp only at allocates
  split_ifs at allocates with failed
  · cases allocates
    exact ⟨len, by simp⟩
  · obtain ⟨i, search, returned⟩ := Option.map_eq_some_iff.mp allocates
    cases returned
    refine ⟨len, fun address same => ⟨i, (Option.some.inj same).symm, ?_⟩⟩
    have inside := (firstFit_some search).1
    exact inside.trans_eq len

structure Block.Placed (len : Nat) (block : Block) : Prop where
  aligned : block.address = block.first * pageSize + allocHeaderSize
  few : numPages block.bytes ≤ len

namespace Heap

variable {start : Memory} {heap : Heap} {block : Block}

theorem Reaches.placed (reached : Reaches start Owns heap) :
    heap.memory.len = start.len ∧ ∀ block ∈ heap.live, block.Placed start.len := by
  induction reached with
  | start => simp
  | @step heap after command before allowed acts ih =>
      obtain ⟨len, placed⟩ := ih
      cases command with
      | allocate bytes =>
          simp only [act] at acts
          split at acts
          · cases acts
          · rename_i memory allocates
            obtain rfl := Option.some.inj acts
            exact ⟨(gAllocate_len allocates).1.trans len, placed⟩
          · rename_i memory address allocates
            obtain rfl := Option.some.inj acts
            obtain ⟨sameLen, addresses⟩ := gAllocate_len allocates
            obtain ⟨i, rfl, inside⟩ := addresses address rfl
            simp only [List.mem_cons, forall_eq_or_imp]
            refine ⟨sameLen.trans len, ⟨by rw [Block.first_mk], ?_⟩, placed⟩
            rw [len] at inside
            exact (Nat.le_add_left _ i).trans inside
      | deallocate released =>
          obtain rfl := Option.some.inj acts
          exact ⟨len, fun block member => placed block (List.mem_of_mem_erase member)⟩
      | store address value =>
          obtain rfl := Option.some.inj acts
          exact ⟨len, placed⟩

theorem Reaches.mono {admitted other : Heap → Command → Prop} (reached : Reaches start admitted heap)
    (weaker : ∀ heap command, admitted heap command → other heap command) :
    Reaches start other heap := by
  induction reached with
  | start => exact .start
  | step before allowed acts ih => exact ih.step (weaker _ _ allowed) acts

theorem Issued.placed (issued : Issued start block heap) : block.Placed start.len := by
  induction issued with
  | returned reached live => exact reached.placed.2 block live
  | step before allowed acts ih => exact ih

def paint (heap : Heap) (value : UInt8) (address : Nat) : UInt8 :=
  if heap.IsUserByte address ∧ address % pageSize = 16 then value else heap.memory.pool address

theorem paint_outside {value : UInt8} {address : Nat} (outside : ¬heap.IsUserByte address) :
    heap.paint value address = heap.memory.pool address := by
  simp [paint, outside]

theorem paint_read {value : UInt8} {i : Nat} (inside : heap.IsUserByte (freeFieldAt i)) :
    heap.paint value (freeFieldAt i) = value := by
  simp [paint, inside, freeFieldAt_mod]

end Heap

def HeaderWhole (pool : Nat → UInt8) (block : Block) : Prop :=
  readU32 pool (block.first * pageSize) = block.first ∧
    readU32 pool (block.first * pageSize + 4) = numPages block.bytes

/-- Whatever the owners store, the answer is whether all pages of the block are free. -/
def AgreesForAllData (bool : BoolReading) (heap : Heap) (block : Block) : Prop :=
  ∀ pool, (∀ address, ¬heap.IsUserByte address → pool address = heap.memory.pool address) →
    HeaderWhole pool block →
    ∃ after answer,
      isMemFree bool { heap.memory with pool := pool } (some block.address) =
        some (after, answer) ∧
        (answer = true ↔ ∀ i ∈ block.pages, (heap.memory.pages i).free = true)

/-- The bytes that are read lie in the pool, belong to no user and happen to be right. -/
def ReadsTell (bool : BoolReading) (heap : Heap) (block : Block) : Prop :=
  if ∀ i ∈ block.pages, (heap.memory.pages i).free = true then
    ∀ i < numPages block.bytes, freeFieldAt i < heap.memory.size ∧
      ¬heap.IsUserByte (freeFieldAt i) ∧ bool.read (heap.memory.pool (freeFieldAt i)) = true
  else
    ∃ i < numPages block.bytes, freeFieldAt i < heap.memory.size ∧
      ¬heap.IsUserByte (freeFieldAt i) ∧ bool.read (heap.memory.pool (freeFieldAt i)) = false

section Query

variable {bool : BoolReading} {heap : Heap} {block : Block} {len : Nat}

theorem HeaderWhole.paint (whole : HeaderWhole heap.memory.pool block) (value : UInt8) :
    HeaderWhole (heap.paint value) block := by
  have kept : ∀ i, block.first * pageSize ≤ i → i < block.first * pageSize + 8 →
      heap.paint value i = heap.memory.pool i := by
    intro i above below
    have elsewhere : i % pageSize ≠ 16 := by
      simp only [pageSize] at above below ⊢
      omega
    simp [Heap.paint, elsewhere]
  exact ⟨(readU32_congr fun i above below => kept i (by omega) (by omega)).trans whole.1,
    (readU32_congr fun i above below => kept i (by omega) (by omega)).trans whole.2⟩

theorem isMemFree_placed (placed : block.Placed len) {m : Memory}
    (whole : HeaderWhole m.pool block) :
    isMemFree bool m (some block.address) =
      (readFree bool (semWait m) (numPages block.bytes) 0).map fun isFree =>
        (semPost (semWait m), isFree) := by
  have header : getHeader block.address = block.first * pageSize := by
    rw [placed.aligned, getHeader, Nat.add_sub_cancel]
  have count : readU32 (semWait m).pool (getHeader block.address + 4) = numPages block.bytes := by
    rw [header]
    exact whole.2
  simp only [isMemFree, count]

theorem agrees_of_reads (placed : block.Placed len) (small : len < 4194304)
    (tells : ReadsTell bool heap block) : AgreesForAllData bool heap block := by
  intro pool same whole
  rw [isMemFree_placed placed whole]
  rw [ReadsTell] at tells
  split_ifs at tells with free
  · have reads : readFree bool (semWait { heap.memory with pool := pool }) (numPages block.bytes) 0 =
        some true := by
      refine readFree_all fun j _ upper => ?_
      obtain ⟨inside, outside, set⟩ := tells j (by omega)
      refine ⟨inside, ?_⟩
      simpa only [semWait, same _ outside] using set
    rw [reads]
    exact ⟨_, true, rfl, by simpa using free⟩
  · obtain ⟨j, upper, inside, outside, unset⟩ := tells
    have few := placed.few
    have reads : readFree bool (semWait { heap.memory with pool := pool }) (numPages block.bytes) 0 =
        some false := by
      refine readFree_stop (Nat.zero_le j) (by omega) (fun k order => ?_) ?_
      · have order := freeFieldAt_mono order (by omega)
        exact Nat.lt_of_le_of_lt order inside
      · simpa only [semWait, same _ outside] using unset
    rw [reads]
    exact ⟨_, false, rfl, by simpa using free⟩

theorem reads_of_agrees (placed : block.Placed len) (whole : HeaderWhole heap.memory.pool block)
    (agrees : AgreesForAllData bool heap block) : ReadsTell bool heap block := by
  have painted : ∀ value, ∃ answer,
      readFree bool (semWait { heap.memory with pool := heap.paint value }) (numPages block.bytes) 0 =
        some answer ∧
      (answer = true ↔ ∀ i ∈ block.pages, (heap.memory.pages i).free = true) := by
    intro value
    obtain ⟨after, answer, query, right⟩ :=
      agrees (heap.paint value) (fun address => Heap.paint_outside) (whole.paint value)
    rw [isMemFree_placed placed (whole.paint value), Option.map_eq_some_iff] at query
    obtain ⟨read, reads, same⟩ := query
    obtain rfl := (Prod.mk.inj same).2
    exact ⟨read, reads, right⟩
  rw [ReadsTell]
  split_ifs with free
  · obtain ⟨answer, reads, right⟩ := painted 0
    obtain rfl := right.mpr free
    intro i upper
    obtain ⟨inside, set⟩ := readFree_true reads i (Nat.zero_le i) (by omega)
    have outside : ¬heap.IsUserByte (freeFieldAt i) := by
      intro user
      have zero : bool.read (heap.paint 0 (freeFieldAt i)) = true := set
      rw [Heap.paint_read user, bool.zero] at zero
      cases zero
    refine ⟨inside, outside, ?_⟩
    simpa only [semWait, Heap.paint_outside outside] using set
  · obtain ⟨answer, reads, right⟩ := painted 1
    obtain rfl : answer = false := by
      cases answer with
      | false => rfl
      | true => exact absurd (right.mp rfl) free
    obtain ⟨i, -, upper, inside, unset⟩ := readFree_false reads
    have outside : ¬heap.IsUserByte (freeFieldAt i) := by
      intro user
      have one : bool.read (heap.paint 1 (freeFieldAt i)) = false := unset
      rw [Heap.paint_read user, bool.one] at one
      cases one
    refine ⟨i, by omega, inside, outside, ?_⟩
    simpa only [semWait, Heap.paint_outside outside] using unset

/-- In every run, for each block that was returned and has its header, `is_mem_free` reports the
pages of the block exactly when the bytes it reads in their place allow it. -/
theorem is_mem_free_agrees_iff (bool : BoolReading) (hand : Nat) (bytes : Nat → UInt8) (memSize : Nat)
    (small : memSize < u32Range) (heap : Heap) (block : Block)
    (issued : Heap.Issued (initMemory hand bytes memSize) block heap)
    (whole : HeaderWhole heap.memory.pool block) :
    AgreesForAllData bool heap block ↔ ReadsTell bool heap block :=
  ⟨reads_of_agrees issued.placed whole,
    agrees_of_reads issued.placed (Accounted.start hand bytes small).invariant.len_lt⟩

end Query

theorem twoBlocks_issued : Heap.Issued (initMemory 0 (fun _ => 0) 32768) ⟨8, 1000⟩ twoBlocks :=
  .returned (twoBlocks_reached.mono fun _ _ served => served.1) (by decide)

theorem is_mem_free_agrees_two : ¬AgreesForAllData .plain twoBlocks ⟨8, 1000⟩ := by
  have exact_when := is_mem_free_agrees_iff .plain 0 (fun _ => 0) 32768 (by decide) twoBlocks
    ⟨8, 1000⟩ twoBlocks_issued (by unfold HeaderWhole; decide)
  rw [exact_when, ReadsTell]
  decide

/-- The owner of the first block stores a 1, and the block counts as free. -/
theorem is_mem_free_reads_data : ∃ heap,
    Heap.Issued (initMemory 0 (fun _ => 0) 32768) ⟨8, 1000⟩ heap ∧
      HeaderWhole heap.memory.pool ⟨8, 1000⟩ ∧ (Block.mk 8 1000).pages = {0} ∧
      (heap.memory.pages 0).free = false ∧
      (isMemFree .plain heap.memory (some 8)).map Prod.snd = some true := by
  have owned : twoBlocks.Owns (.store 16 1) := ⟨⟨8, 1000⟩, by decide, by decide, by decide⟩
  exact ⟨_, twoBlocks_issued.step owned rfl, by unfold HeaderWhole; decide, by decide, by decide,
    by decide⟩

end Gaveta
