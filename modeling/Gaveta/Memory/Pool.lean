import Mathlib.Tactic.Common

/-! The page pool of `mem.c`. -/

namespace Gaveta

def pageSize : Nat := 1024

def allocHeaderSize : Nat := 8

def defaultMemorySize : Nat := 1048576

def u32Range : Nat := 4294967296

structure Page where
  free : Bool
  used : Bool
deriving DecidableEq

/-- A pool; addresses count from the start of its memory, and the semaphore is below 0 where a
caller would wait for ever. -/
structure Memory where
  size : Nat
  len : Nat
  freePageNum : Nat
  pages : Nat → Page
  pool : Nat → UInt8
  memoryS : Int
  /-- `i`, the static variable of `second_chance` -/
  hand : Nat

def semWait (m : Memory) : Memory := { m with memoryS := m.memoryS - 1 }

def semPost (m : Memory) : Memory := { m with memoryS := m.memoryS + 1 }

/-- `init_memory`; it leaves the clock hand and the bytes of the pool as it finds them. -/
def initMemory (hand : Nat) (bytes : Nat → UInt8) (memSize : Nat) : Memory :=
  let size := if memSize ≤ 16 * 1024 then defaultMemorySize else memSize
  { size := size
    len := size / pageSize
    freePageNum := size / pageSize
    pages := fun _ => { free := true, used := false }
    pool := bytes
    memoryS := 1
    hand := hand }

def writeU32 (pool : Nat → UInt8) (address value : Nat) (i : Nat) : UInt8 :=
  if i = address then UInt8.ofNat value
  else if i = address + 1 then UInt8.ofNat (value / 256)
  else if i = address + 2 then UInt8.ofNat (value / 65536)
  else if i = address + 3 then UInt8.ofNat (value / 16777216)
  else pool i

def readU32 (pool : Nat → UInt8) (address : Nat) : Nat :=
  (pool address).toNat + 256 * (pool (address + 1)).toNat + 65536 * (pool (address + 2)).toNat +
    16777216 * (pool (address + 3)).toNat

/-- The loop of `second_chance` from page `curr` on.  Up to `len + 2` pages are enough, also if
`curr` starts behind the table. -/
def sweep (len hand : Nat) : Nat → Nat → (Nat → Page) → (Nat → Page) × Nat × Bool
  | 0, _, pages => (pages, hand, false)
  | fuel + 1, curr, pages =>
      if (pages curr).used = false then (pages, (curr + 1) % len, true)
      else
        let pages := Function.update pages curr { pages curr with used := false }
        let curr := (curr + 1) % len
        if curr + 1 = hand then (pages, (curr + 1) % len, false)
        else sweep len hand fuel curr pages

/-- `second_chance`; no page is -1. -/
def secondChance (m : Memory) : Memory × Option Nat :=
  let m := semWait m
  let swept := sweep m.len m.hand (m.len + 2) m.hand m.pages
  (semPost { m with pages := swept.1, hand := swept.2.1 },
    if swept.2.2 then some swept.2.1 else none)

def handOver (m : Memory) (page : Nat) : Memory :=
  { m with
    pages := Function.update m.pages page { m.pages page with free := true }
    freePageNum := m.freePageNum + 1 }

/-- The loop of `g_allocate` that replaces pages, once for each missing page; false if it gives
up. -/
def replacePages : Nat → Memory → Memory × Bool
  | 0, m => (m, true)
  | missing + 1, m =>
      let swept := secondChance m
      match swept.2 with
      | none => (semPost swept.1, false)
      | some page => replacePages missing (semPost (handOver (semWait swept.1) page))

/-- The search of `g_allocate` for `numPages` consecutive free pages, from page `i` on. -/
def firstFit (pages : Nat → Page) (len numPages : Nat) : Nat → Nat → Option Nat
  | 0, _ => none
  | rest + 1, i =>
      if i + numPages > len then none
      else if (List.range' i numPages).all fun j => (pages j).free then some i
      else firstFit pages len numPages rest (i + 1)

def numPages (bytes : Nat) : Nat := (bytes + allocHeaderSize + pageSize - 1) / pageSize

def takePages (m : Memory) (i numPages : Nat) : Memory :=
  { m with
    freePageNum := m.freePageNum - numPages
    pages := fun j =>
      if i ≤ j ∧ j < i + numPages then { free := false, used := true } else m.pages j
    pool := writeU32 (writeU32 m.pool (i * pageSize) i) (i * pageSize + 4) numPages }

/-- `g_allocate`: the pool that it leaves if the process exits, otherwise the pool and the
returned address. -/
def gAllocateOrExit (m : Memory) (bytes : Nat) : Except Memory (Memory × Option Nat) :=
  if bytes = 0 then .ok (m, none)
  else if m.size ≤ bytes then .ok (m, none)
  else
    let replaced := replacePages (numPages bytes - m.freePageNum) m
    if replaced.2 = false then .ok (replaced.1, none)
    else
      let m := semWait replaced.1
      match firstFit m.pages m.len (numPages bytes) m.len 0 with
      | none => .error (semPost m)
      | some i =>
          .ok (semPost (takePages m i (numPages bytes)), some (i * pageSize + allocHeaderSize))

/-- `g_allocate` for its callers, to whom an exit gives nothing. -/
def gAllocate (m : Memory) (bytes : Nat) : Option (Memory × Option Nat) :=
  (gAllocateOrExit m bytes).toOption

theorem gAllocate_asked {m : Memory} {bytes : Nat} (asked : bytes ≠ 0) (fits : bytes < m.size) :
    gAllocate m bytes =
      let replaced := replacePages (numPages bytes - m.freePageNum) m
      if replaced.2 = false then some (replaced.1, none)
      else
        (firstFit replaced.1.pages replaced.1.len (numPages bytes) replaced.1.len 0).map fun i =>
          (semPost (takePages (semWait replaced.1) i (numPages bytes)),
            some (i * pageSize + allocHeaderSize)) := by
  simp only [gAllocate, gAllocateOrExit, if_neg asked, if_neg (Nat.not_le.mpr fits), semWait]
  split_ifs
  · rfl
  · cases firstFit _ _ _ _ _ <;> rfl

theorem gAllocate_refused {m : Memory} {bytes : Nat} (refused : bytes = 0 ∨ m.size ≤ bytes) :
    gAllocate m bytes = some (m, none) := by
  rw [gAllocate, gAllocateOrExit]
  rcases refused with rfl | large
  · rfl
  · by_cases zero : bytes = 0
    · rw [if_pos zero]
      rfl
    · rw [if_neg zero, if_pos large]
      rfl

def getHeader (ptr : Nat) : Nat := ptr - allocHeaderSize

def gDeallocate (m : Memory) : Option Nat → Memory
  | none => semPost (semWait m)
  | some mem =>
      let m := semWait m
      let id := readU32 m.pool (getHeader mem)
      let pageNum := readU32 m.pool (getHeader mem + 4)
      semPost
        { m with
          pages := fun i =>
            if id ≤ i ∧ i < (id + pageNum) % u32Range then { m.pages i with free := true }
            else m.pages i
          freePageNum := (m.freePageNum + pageNum) % u32Range }

section Header

variable {pool : Nat → UInt8} {address value : Nat}

theorem readU32_writeU32 (small : value < u32Range) :
    readU32 (writeU32 pool address value) address = value := by
  simp only [u32Range] at small
  simp [readU32, writeU32]
  omega

theorem readU32_congr {other : Nat → UInt8}
    (same : ∀ i, address ≤ i → i < address + 4 → other i = pool i) :
    readU32 other address = readU32 pool address := by
  rw [readU32, readU32, same address (by omega) (by omega), same (address + 1) (by omega) (by omega),
    same (address + 2) (by omega) (by omega), same (address + 3) (by omega) (by omega)]

theorem writeU32_outside {i : Nat} (outside : i < address ∨ address + 4 ≤ i) :
    writeU32 pool address value i = pool i := by
  rw [writeU32, if_neg (by omega), if_neg (by omega), if_neg (by omega), if_neg (by omega)]

end Header

theorem firstFit_some {pages : Nat → Page} {len count rest i found : Nat}
    (search : firstFit pages len count rest i = some found) :
    found + count ≤ len ∧ ∀ j, found ≤ j → j < found + count → (pages j).free = true := by
  induction rest generalizing i with
  | zero => cases search
  | succ rest ih =>
      rw [firstFit] at search
      split_ifs at search with beyond fits
      · cases search
        refine ⟨by omega, fun j lower upper => ?_⟩
        simp only [List.all_eq_true, List.mem_range'_1] at fits
        exact fits j ⟨lower, upper⟩
      · exact ih search

theorem firstFit_none {pages : Nat → Page} {len count rest i : Nat}
    (search : firstFit pages len count rest i = none) (enough : len ≤ i + rest) {first : Nat}
    (later : i ≤ first) (inside : first + count ≤ len) (positive : 0 < count) :
    ∃ j, first ≤ j ∧ j < first + count ∧ (pages j).free = false := by
  induction rest generalizing i with
  | zero => omega
  | succ rest ih =>
      rw [firstFit] at search
      split_ifs at search with beyond fits
      · omega
      · rcases Nat.eq_or_lt_of_le later with rfl | later
        · simp only [List.all_eq_true, List.mem_range'_1, not_forall, Bool.not_eq_true] at fits
          obtain ⟨j, bounds, taken⟩ := fits
          exact ⟨j, bounds.1, bounds.2, taken⟩
        · exact ih search (by omega) later

end Gaveta
