import Gaveta.CString
import Gaveta.Memory.Heap

/-! The pool with typed contents, for the structures that are built in it. -/

namespace Gaveta

structure ListNode where
  data : Option Nat
  dataSize : Nat
  next : Option Nat
deriving DecidableEq

structure QueueNode where
  data : Option Nat
  dataSize : Nat
  next : Option Nat
  tail : Option Nat
deriving DecidableEq

structure Bucket where
  key : Nat
  data : Nat
deriving DecidableEq

structure DynamicArray where
  data : Nat
  size : Nat
  capacity : Nat
  elementSize : Nat
deriving DecidableEq

/-- The hash function is a parameter of the operations. -/
structure HashTable where
  dataSize : UInt32
  maxKeySize : UInt16
  bucketHeads : Nat
deriving DecidableEq

inductive Cell where
  | raw
  | node (node : ListNode)
  | queue (node : QueueNode)
  | bucket (bucket : Bucket)
  | chars (string : CString)
  | bytes (content : List UInt8)
  | array (array : DynamicArray)
  | elements (elements : List ListNode)
  | table (table : HashTable)
deriving DecidableEq

inductive Event where
  | allocate (block : Block)
  | release (address : Nat)
deriving DecidableEq

def copied (dataSize : Nat) (data : Nat → UInt8) : List UInt8 := (List.range dataSize).map data

@[simp] theorem length_copied (dataSize : Nat) (data : Nat → UInt8) :
    (copied dataSize data).length = dataSize := by
  rw [copied, List.length_map, List.length_range]

/-- The blocks in use after a trace, whose last event stands first. -/
def liveBlocks : List Event → List Block
  | [] => []
  | .allocate block :: earlier => block :: liveBlocks earlier
  | .release address :: earlier =>
      (liveBlocks earlier).filter fun block => block.address ≠ address

theorem length_liveBlocks (trace : List Event) : (liveBlocks trace).length ≤ trace.length := by
  induction trace with
  | nil => exact le_rfl
  | cons event trace ih =>
      cases event with
      | allocate block => exact Nat.succ_le_succ ih
      | release address =>
          exact ((List.length_filter_le ..).trans ih).trans (Nat.le_succ _)

def Block.Overlaps (block other : Block) : Prop :=
  block.address ≤ other.address ∧ other.address < block.address + block.bytes ∨
    other.address ≤ block.address ∧ block.address < other.address + other.bytes

instance (block other : Block) : Decidable (block.Overlaps other) :=
  inferInstanceAs (Decidable (_ ∨ _))

structure Arena where
  memory : Memory
  cells : Nat → Cell
  trace : List Event

namespace Arena

def unusedArena (memSize : Nat) : Arena :=
  { memory := initMemory 0 (fun _ => 0) memSize, cells := fun _ => .raw, trace := [] }

def Live (arena : Arena) (address : Nat) : Prop :=
  ∃ block ∈ liveBlocks arena.trace, block.address = address

def store (arena : Arena) (address : Nat) (cell : Cell) : Arena :=
  { arena with cells := Function.update arena.cells address cell }

/-- `g_alloc` where it succeeds: the block has no byte in common with the blocks in use. -/
def gAlloc (arena : Arena) (bytes : Nat) : Option (Arena × Nat) :=
  match gAllocate arena.memory bytes with
  | some (memory, some address) =>
      let block : Block := { address := address, bytes := bytes }
      if ∃ other ∈ liveBlocks arena.trace, block.Overlaps other then none
      else
        some
          ({ memory := memory
             cells := Function.update arena.cells address .raw
             trace := .allocate block :: arena.trace }, address)
  | _ => none

/-- `g_dealloc`; the contents of the block stay readable. -/
def gDealloc (arena : Arena) (address : Nat) : Arena :=
  { arena with
    memory := gDeallocate arena.memory (some address)
    trace := .release address :: arena.trace }

def loadBytes (arena : Arena) (address count : Nat) : Option (List UInt8) :=
  match arena.cells address with
  | .bytes content => if count ≤ content.length then some (content.take count) else none
  | _ => none

structure Extends (arena after : Arena) : Prop where
  live : ∀ {address}, arena.Live address → after.Live address
  same : ∀ {address}, arena.Live address → after.cells address = arena.cells address
  longer : arena.trace.length ≤ after.trace.length

namespace Extends

variable {arena middle after : Arena}

theorem refl (arena : Arena) : Extends arena arena := ⟨id, fun _ => rfl, le_rfl⟩

theorem trans (first : Extends arena middle) (second : Extends middle after) :
    Extends arena after where
  live := fun live => second.live (first.live live)
  same := fun live => (second.same (first.live live)).trans (first.same live)
  longer := first.longer.trans second.longer

theorem store (grows : Extends arena after) {address : Nat} (fresh : ¬arena.Live address)
    (cell : Cell) : Extends arena (after.store address cell) where
  live := fun live => grows.live live
  same := by
    intro other live
    have different : other ≠ address := by
      rintro rfl
      exact fresh live
    have kept : (after.store address cell).cells other = after.cells other :=
      Function.update_of_ne different ..
    rw [kept]
    exact grows.same live
  longer := grows.longer

end Extends

@[simp] theorem store_cells_self (arena : Arena) (address : Nat) (cell : Cell) :
    (arena.store address cell).cells address = cell := Function.update_self ..

theorem store_cells_of_ne (arena : Arena) {address other : Nat} (cell : Cell)
    (different : other ≠ address) :
    (arena.store address cell).cells other = arena.cells other := Function.update_of_ne different ..

@[simp] theorem store_live (arena : Arena) (address other : Nat) (cell : Cell) :
    (arena.store address cell).Live other ↔ arena.Live other := Iff.rfl

@[simp] theorem store_trace (arena : Arena) (address : Nat) (cell : Cell) :
    (arena.store address cell).trace = arena.trace := rfl

structure Allocated (arena after : Arena) (address bytes : Nat) : Prop where
  grows : Extends arena after
  fresh : ¬arena.Live address
  live : after.Live address
  trace : after.trace = .allocate { address := address, bytes := bytes } :: arena.trace

theorem gAlloc_spec {arena after : Arena} {bytes address : Nat}
    (allocated : arena.gAlloc bytes = some (after, address)) :
    Allocated arena after address bytes := by
  rw [gAlloc] at allocated
  split at allocated
  · rename_i memory found returned
    dsimp only at allocated
    split_ifs at allocated with overlaps
    obtain ⟨rfl, rfl⟩ := by simpa using allocated
    have positive : 0 < bytes := by
      by_contra zero
      rw [gAllocate_refused (Or.inl (Nat.eq_zero_of_not_pos zero))] at returned
      cases returned
    have fresh : ¬arena.Live found := by
      rintro ⟨block, member, rfl⟩
      exact overlaps ⟨block, member, Or.inl ⟨le_rfl, Nat.lt_add_of_pos_right positive⟩⟩
    refine ⟨⟨?_, ?_, by simp⟩, fresh, ⟨_, List.mem_cons_self, rfl⟩, rfl⟩
    · rintro other ⟨block, member, rfl⟩
      exact ⟨block, List.mem_cons_of_mem _ member, rfl⟩
    · intro other live
      have different : other ≠ found := by
        rintro rfl
        exact fresh live
      exact Function.update_of_ne different ..
  · cases allocated

def Holds (arena : Arena) (address : Nat) (cell : Cell) : Prop :=
  arena.Live address ∧ arena.cells address = cell

namespace Holds

variable {arena after : Arena} {address : Nat} {cell : Cell}

theorem grow (holds : arena.Holds address cell) (grows : Extends arena after) :
    after.Holds address cell :=
  ⟨grows.live holds.1, (grows.same holds.1).trans holds.2⟩

theorem store_self (live : arena.Live address) : (arena.store address cell).Holds address cell :=
  ⟨live, arena.store_cells_self address cell⟩

theorem store_of_ne (holds : arena.Holds address cell) {other : Nat} (value : Cell)
    (different : address ≠ other) : (arena.store other value).Holds address cell :=
  ⟨holds.1, (arena.store_cells_of_ne value different).trans holds.2⟩

theorem unique (holds : arena.Holds address cell) {other : Cell}
    (too : arena.Holds address other) : cell = other :=
  holds.2.symm.trans too.2

theorem ne {place : Nat} {other : Cell} (holds : arena.Holds address cell)
    (too : arena.Holds place other) (different : cell ≠ other) : address ≠ place := by
  rintro rfl
  exact different (holds.unique too)

theorem gDealloc (holds : arena.Holds address cell) {released : Nat}
    (different : address ≠ released) : (arena.gDealloc released).Holds address cell := by
  obtain ⟨⟨block, member, rfl⟩, same⟩ := holds
  exact ⟨⟨block, List.mem_filter.mpr ⟨member, by simpa using different⟩, rfl⟩, same⟩

end Holds

theorem loadBytes_holds {arena : Arena} {address : Nat} {content : List UInt8}
    (holds : arena.Holds address (.bytes content)) :
    arena.loadBytes address content.length = some content := by
  simp only [loadBytes, holds.2, le_refl, ↓reduceIte, List.take_length]

end Arena

end Gaveta
