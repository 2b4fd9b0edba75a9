import Gaveta.Structures.HashTable

/-! The walk of `get_ht_keys` over the buckets, which starts at their sentinels. -/

namespace Gaveta

structure KeyArray where
  keys : Nat
  entries : List (Option Nat)
  reads : List ListPtr

namespace Arena

def countNodes (arena : Arena) : Nat → Option Nat → Option Nat
  | 0, _ => none
  | _ + 1, none => some 0
  | fuel + 1, some aux => do
      let node ← arena.loadNode (.block aux)
      let count ← countNodes arena fuel node.next
      some (count + 1)

def getLlSize (arena : Arena) : Option ListPtr → Option Nat
  | none => some 0
  | some ll => do
      let head ← arena.loadNode ll
      arena.countNodes (arena.trace.length + 1) head.next

/-- `g_alloc`, which returns `NULL` for no bytes. -/
def gAllocOrNull (arena : Arena) (bytes : Nat) : Option (Arena × Option Nat) :=
  if bytes = 0 then some (arena, none)
  else (arena.gAlloc bytes).map fun allocated => (allocated.1, some allocated.2)

/-- `strncpy`; a string that fills the buffer stays without its end. -/
def strncpy (arena : Arena) (target : Option Nat) (string : CString) (size : Nat) : Option Arena :=
  match target with
  | none => if size = 0 then some arena else none
  | some address => some (arena.store address (.chars (string.truncate size)))

/-- The inner loop of `get_ht_keys` from round `j` on; nothing where it reads through `NULL`. -/
def copyKeys (m : Nat) (entry : Option Nat) :
    Nat → Nat → Option ListPtr → List ListPtr → Arena → Option (Arena × List ListPtr)
  | 0, _, _, _, _ => none
  | fuel + 1, j, gl, reads, arena => do
      let size ← arena.getLlSize gl
      if size ≤ j then some (arena, reads)
      else
        let ptr ← gl
        let node ← arena.loadNode ptr
        let b ← node.data
        let bucket ← arena.loadBucket b
        let key ← arena.loadChars bucket.key
        let arena ← arena.strncpy entry key m
        copyKeys m entry fuel (j + 1) (node.next.map .block) (ptr :: reads) arena

def collectKeys (header : DynamicArray) (m : Nat) :
    Nat → Nat → Arena → Option (Arena × List (Option Nat) × List ListPtr)
  | 0, _, arena => some (arena, [], [])
  | left + 1, i, arena => do
      let (arena, entry) ← arena.gAllocOrNull m
      let gl ← darrayGetPointer header i
      let (arena, reads) ← copyKeys m entry (arena.trace.length + 1) 0 (some gl) [] arena
      let (arena, entries, others) ← collectKeys header m left (i + 1) arena
      some (arena, entry :: entries, reads ++ others)

/-- `get_ht_keys`.  The array has `n` bytes for its `n` pointers, which its page has room for. -/
def getHtKeys (arena : Arena) (ht : Nat) : Option (Arena × KeyArray) := do
  let table ← arena.loadTable ht
  let header ← arena.loadArray table.bucketHeads
  let (arena, keys) ← arena.gAlloc header.size
  let (arena, entries, reads) ← collectKeys header table.maxKeySize.toNat header.size 0 arena
  some (arena, { keys := keys, entries := entries, reads := reads })

def allocEntries (m : Nat) : Nat → Arena → Option Arena
  | 0, arena => some arena
  | left + 1, arena => do
      let (arena, _) ← arena.gAllocOrNull m
      allocEntries m left arena

def allocKeys (arena : Arena) (n m : Nat) : Option Arena := do
  let (arena, _) ← arena.gAlloc n
  allocEntries m n arena

section Keys

variable {arena after : Arena} {ht heads data : Nat} {next : Nat → Option Nat}
  {dataSize : UInt32} {maxKeySize : UInt16} {entries : Nat → List Entry}

theorem Represents.head {i : Nat}
    (represents : Represents arena ht heads data next dataSize maxKeySize entries)
    (inside : i < initialHtSize) :
    arena.loadNode (.element data i) = some (sentinel (next i)) := by
  rw [loadNode_element represents.elements]
  simp [inside]

theorem gAllocOrNull_grows {bytes : Nat} {address : Option Nat}
    (allocated : arena.gAllocOrNull bytes = some (after, address)) : Extends arena after := by
  rw [gAllocOrNull] at allocated
  split_ifs at allocated with empty
  · obtain ⟨rfl, rfl⟩ := by simpa using allocated
    exact .refl arena
  · obtain ⟨⟨later, place⟩, found, same⟩ := Option.map_eq_some_iff.mp allocated
    obtain ⟨rfl, rfl⟩ := by simpa using same
    exact (gAlloc_spec found).grows

theorem countNodes_spec {head : Option Nat} {listed : List Entry} {fuel : Nat}
    (chain : Chain arena head listed) (enough : listed.length < fuel) :
    arena.countNodes fuel head = some listed.length := by
  induction chain generalizing fuel with
  | nil =>
      obtain ⟨fuel, rfl⟩ := Nat.exists_eq_add_of_lt enough
      simp [countNodes]
  | cons node _ _ _ _ ih =>
      obtain ⟨fuel, rfl⟩ : ∃ left, fuel = left + 1 := ⟨fuel - 1, by omega⟩
      have rest := @ih fuel (by simpa using enough)
      simp [countNodes, loadNode_block node, rest]

theorem getLlSize_spec {i : Nat}
    (represents : Represents arena ht heads data next dataSize maxKeySize entries)
    (inside : i < initialHtSize) :
    arena.getLlSize (some (.element data i)) = some (entries i).length := by
  have counted := countNodes_spec (represents.chains i inside)
    (Nat.lt_succ_of_le (represents.short i inside))
  simpa [getLlSize, represents.head inside, sentinel] using counted

theorem copyKeys_bucket {i m fuel : Nat} {entry : Option Nat} {reads : List ListPtr}
    (represents : Represents arena ht heads data next dataSize maxKeySize entries)
    (inside : i < initialHtSize) :
    copyKeys m entry (fuel + 1) 0 (some (.element data i)) reads arena =
      if entries i = [] then some (arena, reads) else none := by
  simp only [copyKeys, getLlSize_spec represents inside, represents.head inside,
    Option.bind_eq_bind, Option.bind_some, sentinel, Option.bind_none, Nat.le_zero_eq,
    List.length_eq_zero_iff]

theorem collectKeys_filled {m left i : Nat}
    (represents : Represents arena ht heads data next dataSize maxKeySize entries)
    (inside : i + left ≤ initialHtSize)
    (filled : ∃ k, i ≤ k ∧ k < i + left ∧ entries k ≠ []) :
    collectKeys
      { data := data, size := initialHtSize, capacity := initialHtSize, elementSize := listNodeSize }
      m left i arena = none := by
  induction left generalizing arena i with
  | zero =>
      obtain ⟨k, lower, upper, _⟩ := filled
      omega
  | succ left ih =>
      have here : i < initialHtSize := by omega
      cases allocated : arena.gAllocOrNull m with
      | none => simp [collectKeys, allocated]
      | some made =>
          have grown := represents.grow (gAllocOrNull_grows allocated)
          by_cases empty : entries i = []
          · have later : ∃ k, i + 1 ≤ k ∧ k < i + 1 + left ∧ entries k ≠ [] := by
              obtain ⟨k, lower, upper, kept⟩ := filled
              have other : k ≠ i := by
                rintro rfl
                exact kept empty
              exact ⟨k, by omega, by omega, kept⟩
            have rest := ih grown (by omega) later
            simp [collectKeys, allocated, Represents.pointer here, copyKeys_bucket grown here, empty,
              rest]
          · simp [collectKeys, allocated, Represents.pointer here, copyKeys_bucket grown here, empty]

theorem collectKeys_empty {m left i : Nat}
    (represents : Represents arena ht heads data next dataSize maxKeySize entries)
    (inside : i + left ≤ initialHtSize) (empty : ∀ k, entries k = [])
    (room : (allocEntries m left arena).isSome) :
    ∃ after listed,
      collectKeys
        { data := data, size := initialHtSize, capacity := initialHtSize,
          elementSize := listNodeSize }
        m left i arena = some (after, listed, []) := by
  induction left generalizing arena i with
  | zero => exact ⟨arena, [], rfl⟩
  | succ left ih =>
      have here : i < initialHtSize := by omega
      cases allocated : arena.gAllocOrNull m with
      | none => simp [allocEntries, allocated] at room
      | some made =>
          have grown := represents.grow (gAllocOrNull_grows allocated)
          simp only [allocEntries, allocated, Option.bind_eq_bind, Option.bind_some] at room
          obtain ⟨after, listed, rest⟩ := ih (i := i + 1) grown (by omega) room
          refine ⟨after, made.2 :: listed, ?_⟩
          simp [collectKeys, allocated, Represents.pointer here, copyKeys_bucket grown here, empty,
            rest]

/-- The array has every stored key, otherwise entries of empty buckets only, and `data` was read
from nodes with a bucket. -/
structure ListsKeys (arena after : Arena) (result : KeyArray) (stored : List CString)
    (bucket : CString → Nat) : Prop where
  complete : ∀ key ∈ stored, ∃ address, some address ∈ result.entries ∧
    after.loadChars address = some key
  sound : ∀ i address key, result.entries[i]? = some (some address) →
    after.loadChars address = some key → key ∈ stored ∨ ∀ other ∈ stored, bucket other ≠ i
  buckets : ∀ ptr ∈ result.reads, ∃ node copy held, arena.loadNode ptr = some node ∧
    node.data = some copy ∧ arena.loadBucket copy = some held

variable {h : CString → UInt32} {start empty : Arena} {puts : List (CString × (Nat → UInt8))}

def storedKeys (maxKeySize : UInt16) (puts : List (CString × (Nat → UInt8))) : List CString :=
  puts.map fun put => keptKey maxKeySize put.1

theorem getHtKeys_filled
    (represents : Represents arena ht heads data next dataSize maxKeySize entries)
    (filled : ∃ k < initialHtSize, entries k ≠ []) : arena.getHtKeys ht = none := by
  simp only [getHtKeys, represents.loadTable, represents.loadArray, Option.bind_eq_bind,
    Option.bind_some]
  cases allocated : arena.gAlloc initialHtSize with
  | none => rfl
  | some made =>
      have grown := represents.grow (gAlloc_spec allocated).grows
      obtain ⟨k, upper, kept⟩ := filled
      have stops := collectKeys_filled (m := maxKeySize.toNat) grown (Nat.zero_add _).le
        ⟨k, Nat.zero_le k, by omega, kept⟩
      simp [stops]

theorem get_ht_keys_iff (h : CString → UInt32) (dataSize : UInt32) (maxKeySize : UInt16)
    (puts : List (CString × (Nat → UInt8)))
    (made : start.initHt dataSize maxKeySize = some (empty, ht))
    (short : ∀ put ∈ puts, put.1.bytes.length < 2 ^ 31)
    (filled : empty.putAll h ht puts = some arena)
    (room : (arena.allocKeys initialHtSize maxKeySize.toNat).isSome) :
    (∃ after result, arena.getHtKeys ht = some (after, result) ∧
        ListsKeys arena after result (storedKeys maxKeySize puts) (bucketOf h)) ↔ puts = [] := by
  obtain ⟨heads, data, begun⟩ := initHt_spec made
  have noEntries : Represents empty ht heads data (fun _ => none) dataSize maxKeySize
      (bucketsOf h []) := begun
  constructor
  · rintro ⟨after, result, returned, _⟩
    by_contra some_put
    obtain ⟨next, represents⟩ := putAll_spec noEntries short filled
    obtain ⟨put, member⟩ := List.exists_mem_of_ne_nil puts some_put
    have listed : stored dataSize maxKeySize put ∈
        bucketsOf h ((puts.map (stored dataSize maxKeySize)).reverse ++ [])
          (bucketOf h (stored dataSize maxKeySize put).1) := by
      simp only [bucketsOf, List.append_nil, List.mem_filter, List.mem_reverse, decide_true,
        and_true]
      exact List.mem_map_of_mem member
    rw [getHtKeys_filled represents ⟨_, bucketOf_lt h _, List.ne_nil_of_mem listed⟩] at returned
    cases returned
  · rintro rfl
    obtain rfl := Option.some.inj filled
    simp only [allocKeys, Option.bind_eq_bind] at room
    cases allocated : empty.gAlloc initialHtSize with
    | none => simp [allocated] at room
    | some first =>
        rw [allocated, Option.bind_some] at room
        have grown := begun.grow (gAlloc_spec allocated).grows
        obtain ⟨after, listed, collected⟩ := collectKeys_empty (i := 0) grown (Nat.zero_add _).le
          (fun _ => rfl) room
        refine ⟨after, { keys := first.2, entries := listed, reads := [] }, ?_, ?_⟩
        · simp [getHtKeys, begun.loadTable, begun.loadArray, allocated, collected]
        · exact ⟨by simp [storedKeys], by simp [storedKeys], by simp⟩

theorem get_ht_keys_iff_none :
    ∃ empty ht after result, (unusedArena 200000).initHt 2 3 = some (empty, ht) ∧
      empty.getHtKeys ht = some (after, result) ∧
        ListsKeys empty after result [] (bucketOf fun _ => 5) := by
  have runs : ((unusedArena 200000).initHt 2 3 |>.bind fun made =>
      made.1.allocKeys initialHtSize 3).isSome = true := by
    decide +kernel
  obtain ⟨arena, room⟩ := Option.isSome_iff_exists.mp runs
  obtain ⟨⟨empty, ht⟩, made, room⟩ := Option.bind_eq_some_iff.mp room
  obtain ⟨after, result, returned, listed⟩ := (get_ht_keys_iff (fun _ => 5) 2 3 [] made (by simp) rfl
    (Option.isSome_iff_exists.mpr ⟨arena, room⟩)).mpr rfl
  exact ⟨empty, ht, after, result, made, returned, listed⟩

theorem get_ht_keys_stops :
    ∃ empty ht arena, (unusedArena 200000).initHt 2 3 = some (empty, ht) ∧
      empty.putAll (fun _ => 5) ht [(runOfBytes 1 2, fun _ => 7)] = some arena ∧
      (arena.allocKeys initialHtSize 3).isSome ∧
      ¬∃ after result, arena.getHtKeys ht = some (after, result) ∧
        ListsKeys arena after result [runOfBytes 1 2] (bucketOf fun _ => 5) := by
  have runs : ((unusedArena 200000).initHt 2 3 |>.bind fun made =>
      (made.1.putAll (fun _ => 5) made.2 [(runOfBytes 1 2, fun _ => 7)]).bind fun arena =>
        if (arena.allocKeys initialHtSize 3).isSome ∧ (arena.getHtKeys made.2).isNone then
          some arena
        else none).isSome = true := by
    decide +kernel
  obtain ⟨arena, found⟩ := Option.isSome_iff_exists.mp runs
  obtain ⟨⟨empty, ht⟩, made, found⟩ := Option.bind_eq_some_iff.mp found
  obtain ⟨filled, stored, found⟩ := Option.bind_eq_some_iff.mp found
  split_ifs at found with both
  refine ⟨empty, ht, filled, made, stored, both.1, ?_⟩
  rintro ⟨after, result, returned, _⟩
  have stops := both.2
  rw [returned] at stops
  cases stops

end Keys

end Arena

end Gaveta
