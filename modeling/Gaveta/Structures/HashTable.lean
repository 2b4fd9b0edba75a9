import Gaveta.Library.Scratch
import Gaveta.Structures.LinkedList

/-! `HashTable.c` refines a map in which the latest value of a key counts. -/

namespace Gaveta

def initialHtSize : Nat := 16

def hashTableSize : Nat := 24

/-- `snprintf(_, size + 1, "%s", string)` -/
def CString.truncate (string : CString) (size : Nat) : CString where
  bytes := string.bytes.take size
  nonNul := fun byte member => string.nonNul byte (List.mem_of_mem_take member)

/-- The key after the length check of `put_ht`, whose difference is an `int`.  The `snprintf` of a
longer key reads the buffer that it writes: the C library ends the destination before it reads the
source, and nothing of the key is left. -/
def truncatedKey (maxKeySize : UInt16) (key : CString) : CString :=
  if 0 < ((key.bytes.length : Int) - maxKeySize.toNat).bmod u32Range then .empty else key

def keptKey (maxKeySize : UInt16) (key : CString) : CString :=
  if maxKeySize.toNat < key.bytes.length then .empty else key

namespace Arena

def loadTable (arena : Arena) (ht : Nat) : Option HashTable :=
  match arena.cells ht with
  | .table table => some table
  | _ => none

def loadBucket (arena : Arena) (address : Nat) : Option Bucket :=
  match arena.cells address with
  | .bucket bucket => some bucket
  | _ => none

def loadChars (arena : Arena) (address : Nat) : Option CString :=
  match arena.cells address with
  | .chars string => some string
  | _ => none

/-- The loop of `init_ht`.  The block that `l` names first is lost when `init_ll` sets `l`. -/
def pushHeads (heads : Nat) : Nat → Arena → Option Arena
  | 0, arena => some arena
  | left + 1, arena => do
      let (arena, _) ← arena.gAlloc listNodeSize
      let (arena, l) ← arena.initLl bucketSize
      let sentinel ← arena.loadNode (.block l)
      let arena ← arena.darrayPush heads sentinel
      pushHeads heads left arena

def initHt (arena : Arena) (dataSize : UInt32) (maxKeySize : UInt16) : Option (Arena × Nat) := do
  let (arena, ht) ← arena.gAlloc hashTableSize
  let (arena, heads) ← arena.darrayCreate listNodeSize initialHtSize
  let arena := arena.store ht
    (.table { dataSize := dataSize, maxKeySize := maxKeySize, bucketHeads := heads })
  let arena ← pushHeads heads initialHtSize arena
  some (arena, ht)

def copyBucket (arena : Arena) (table : HashTable) (key : CString) (data : Nat → UInt8) :
    Option (Arena × Nat) := do
  let (arena, b) ← arena.gAlloc bucketSize
  let (arena, content) ← arena.gAlloc table.dataSize.toNat
  let arena := arena.store content (.bytes ((List.range table.dataSize.toNat).map data))
  let (arena, copy) ← arena.gAlloc (table.maxKeySize.toNat + 1)
  let arena := arena.store copy (.chars (key.truncate table.maxKeySize.toNat))
  some (arena.store b (.bucket { key := copy, data := content }), b)

variable (h : CString → UInt32)

def putHt (arena : Arena) (ht : Nat) (key : CString) (data : Nat → UInt8) :
    Option (Arena × Bool) := do
  let table ← arena.loadTable ht
  let heads ← arena.loadArray table.bucketHeads
  let key := truncatedKey table.maxKeySize key
  let i := (h key).toNat % heads.size
  match darrayGetPointer heads i with
  | none => some (arena, false)
  | some bl =>
      let (arena, b) ← arena.copyBucket table key data
      arena.insertLl bl (some (.block b))

/-- `lookup_ht`: the address of the data, or nothing for `NULL`; `f` compares a stored key with
`k`. -/
def lookupHt (f : CString → CString → Bool) (arena : Arena) (ht : Nat) (k : CString) :
    Option (Option Nat) := do
  let table ← arena.loadTable ht
  let heads ← arena.loadArray table.bucketHeads
  let i := (h k).toNat % heads.size
  match darrayGetPointer heads i with
  | none => some none
  | some ll =>
      let found ← arena.searchLl ll fun data => do
        let bucket ← arena.loadBucket data
        let stored ← arena.loadChars bucket.key
        some (f stored k)
      match found with
      | none => some none
      | some data =>
          let bucket ← arena.loadBucket data
          some (some bucket.data)

def putAll (ht : Nat) : List (CString × (Nat → UInt8)) → Arena → Option Arena
  | [], arena => some arena
  | (key, data) :: puts, arena => do
      let (arena, _) ← arena.putHt h ht key data
      putAll ht puts arena

abbrev Entry := CString × List UInt8

def sentinel (next : Option Nat) : ListNode :=
  { data := none, dataSize := bucketSize, next := next }

structure Represents (arena : Arena) (ht heads data : Nat) (next : Nat → Option Nat)
    (dataSize : UInt32) (maxKeySize : UInt16) (entries : Nat → List Entry) : Prop where
  table : arena.Holds ht
    (.table { dataSize := dataSize, maxKeySize := maxKeySize, bucketHeads := heads })
  array : arena.Holds heads
    (.array
      { data := data, size := initialHtSize, capacity := initialHtSize,
        elementSize := listNodeSize })
  elements : arena.Holds data
    (.elements ((List.range initialHtSize).map fun i => sentinel (next i)))
  chains : ∀ i < initialHtSize, Chain arena (next i) (entries i)
  short : ∀ i < initialHtSize, (entries i).length ≤ arena.trace.length

section Init

variable {arena after : Arena}

theorem pushHeads_spec {heads data left count capacity : Nat}
    (array : arena.Holds heads
      (.array { data := data, size := count, capacity := capacity, elementSize := listNodeSize }))
    (elements : arena.Holds data (.elements (List.replicate count (sentinel none))))
    (pushed : pushHeads heads left arena = some after) :
    after.Holds heads
        (.array
          { data := data, size := count + left, capacity := capacity,
            elementSize := listNodeSize }) ∧
      after.Holds data (.elements (List.replicate (count + left) (sentinel none))) ∧
      ∀ {address cell}, arena.Holds address cell → address ≠ heads → address ≠ data →
        after.Holds address cell := by
  induction left generalizing arena count with
  | zero =>
      obtain rfl := Option.some.inj pushed
      exact ⟨array, elements, fun holds _ _ => holds⟩
  | succ left ih =>
      simp only [pushHeads, Option.bind_eq_bind, Option.bind_eq_some_iff, Prod.exists] at pushed
      obtain ⟨first, lost, allocated, second, l, init, node, loaded, third, push, rest⟩ := pushed
      have outer := gAlloc_spec allocated
      obtain ⟨grows, atL⟩ := initLl_spec init
      rw [loadNode_block atL] at loaded
      obtain rfl := Option.some.inj loaded
      obtain ⟨_, array', elements', kept⟩ := darrayPush_spec ((array.grow outer.grows).grow grows)
        ((elements.grow outer.grows).grow grows) push
      have longer : third.Holds data
          (.elements (List.replicate (count + 1) (sentinel none))) := by
        rw [List.replicate_succ']
        exact elements'
      obtain ⟨atHeads, atData, keeps⟩ := ih array' longer rest
      rw [Nat.add_right_comm] at atHeads atData
      refine ⟨atHeads, atData, fun holds notHeads notData => ?_⟩
      exact keeps (kept ((holds.grow outer.grows).grow grows) notHeads notData) notHeads notData

theorem initHt_spec {dataSize : UInt32} {maxKeySize : UInt16} {ht : Nat}
    (made : arena.initHt dataSize maxKeySize = some (after, ht)) :
    ∃ heads data, Represents after ht heads data (fun _ => none) dataSize maxKeySize
      fun _ => [] := by
  simp only [initHt, Option.bind_eq_bind, Option.bind_eq_some_iff, Prod.exists,
    Option.some.injEq, Prod.mk.injEq] at made
  obtain ⟨first, ht, allocated, second, heads, created, last, pushed, rfl, rfl⟩ := made
  have table := gAlloc_spec allocated
  obtain ⟨grows, headsFresh, data, dataFresh, array, elements⟩ :=
    darrayCreate_spec (by decide) created
  have headsNe : heads ≠ ht := by
    rintro rfl
    exact headsFresh table.live
  have dataNe : data ≠ ht := by
    rintro rfl
    exact dataFresh table.live
  obtain ⟨atHeads, atData, kept⟩ := pushHeads_spec (array.store_of_ne _ headsNe)
    (elements.store_of_ne _ dataNe) pushed
  refine ⟨heads, data, kept (Holds.store_self (grows.live table.live)) headsNe.symm dataNe.symm,
    ?_, ?_, fun _ _ => .nil, fun _ _ => Nat.zero_le _⟩
  · rwa [Nat.zero_add] at atHeads
  · rw [Nat.zero_add] at atData
    exact atData

end Init

section Put

variable {h : CString → UInt32} {arena after : Arena} {ht heads data : Nat}
  {next : Nat → Option Nat} {dataSize : UInt32} {maxKeySize : UInt16} {entries : Nat → List Entry}

def bucketOf (h : CString → UInt32) (key : CString) : Nat := (h key).toNat % initialHtSize

theorem bucketOf_lt (h : CString → UInt32) (key : CString) : bucketOf h key < initialHtSize :=
  Nat.mod_lt _ (by decide)

def stored (dataSize : UInt32) (maxKeySize : UInt16) (put : CString × (Nat → UInt8)) : Entry :=
  (keptKey maxKeySize put.1, (List.range dataSize.toNat).map put.2)

theorem truncate_of_length {string : CString} {size : Nat} (fits : string.bytes.length ≤ size) :
    string.truncate size = string :=
  CString.bytes_injective (List.take_of_length_le fits)

theorem truncatedKey_eq {key : CString} (short : key.bytes.length < 2 ^ 31) :
    truncatedKey maxKeySize key = keptKey maxKeySize key := by
  have bound := maxKeySize.toNat_lt
  have same : ((key.bytes.length : Int) - maxKeySize.toNat).bmod u32Range =
      key.bytes.length - maxKeySize.toNat := by
    apply Int.bmod_eq_of_le <;> simp only [u32Range] <;> omega
  have longer : 0 < (key.bytes.length : Int) - maxKeySize.toNat ↔
      maxKeySize.toNat < key.bytes.length := by omega
  simp only [truncatedKey, keptKey, same, longer]

theorem keptKey_length (maxKeySize : UInt16) (key : CString) :
    (keptKey maxKeySize key).bytes.length ≤ maxKeySize.toNat := by
  rw [keptKey]
  split_ifs with longer
  · exact Nat.zero_le _
  · exact not_lt.mp longer

theorem Represents.loadTable (represents : Represents arena ht heads data next dataSize maxKeySize
    entries) : arena.loadTable ht =
      some { dataSize := dataSize, maxKeySize := maxKeySize, bucketHeads := heads } := by
  simp only [Arena.loadTable, represents.table.2]

theorem Represents.loadArray (represents : Represents arena ht heads data next dataSize maxKeySize
    entries) : arena.loadArray heads =
      some { data := data, size := initialHtSize, capacity := initialHtSize,
             elementSize := listNodeSize } := by
  simp only [Arena.loadArray, represents.array.2]

theorem Represents.pointer {index : Nat} (inside : index < initialHtSize) :
    darrayGetPointer
      { data := data, size := initialHtSize, capacity := initialHtSize,
        elementSize := listNodeSize } index = some (.element data index) := by
  rw [darrayGetPointer, if_neg (by simpa using inside)]

theorem Represents.grow
    (represents : Represents arena ht heads data next dataSize maxKeySize entries)
    (grows : Extends arena after) :
    Represents after ht heads data next dataSize maxKeySize entries where
  table := represents.table.grow grows
  array := represents.array.grow grows
  elements := represents.elements.grow grows
  chains := fun i inside => (represents.chains i inside).mono fun holds _ => holds.grow grows
  short := fun i inside => (represents.short i inside).trans grows.longer

theorem copyBucket_spec {table : HashTable} {key : CString} {content : Nat → UInt8} {b : Nat}
    (copied : arena.copyBucket table key content = some (after, b)) :
    Extends arena after ∧ ∃ bucket, after.Holds b (.bucket bucket) ∧
      after.Holds bucket.key (.chars (key.truncate table.maxKeySize.toNat)) ∧
      after.Holds bucket.data (.bytes ((List.range table.dataSize.toNat).map content)) := by
  simp only [copyBucket, Option.bind_eq_bind, Option.bind_eq_some_iff, Prod.exists,
    Option.some.injEq, Prod.mk.injEq] at copied
  obtain ⟨first, b, atBucket, second, bytes, atBytes, third, copy, atCopy, rfl, rfl⟩ := copied
  have bucketNew := gAlloc_spec atBucket
  have bytesNew := gAlloc_spec atBytes
  have copyNew := gAlloc_spec atCopy
  have filled := bytesNew.grows.store bytesNew.fresh
    (.bytes ((List.range table.dataSize.toNat).map content))
  have copyFresh : ¬first.Live copy := fun live => copyNew.fresh (filled.live live)
  have grows := (filled.trans copyNew.grows).store copyFresh
    (.chars (key.truncate table.maxKeySize.toNat))
  have bytesHeld : (second.store bytes
      (.bytes ((List.range table.dataSize.toNat).map content))).Holds bytes _ :=
    Holds.store_self bytesNew.live
  have bytesNotCopy : bytes ≠ copy := by
    rintro rfl
    exact copyNew.fresh bytesHeld.1
  have copyNotBucket : copy ≠ b := by
    rintro rfl
    exact copyFresh bucketNew.live
  have bytesNotBucket : bytes ≠ b := by
    rintro rfl
    exact bytesNew.fresh bucketNew.live
  refine ⟨(bucketNew.grows.trans grows).store bucketNew.fresh _, { key := copy, data := bytes },
    Holds.store_self (grows.live bucketNew.live), ?_, ?_⟩
  · exact (Holds.store_self copyNew.live).store_of_ne _ copyNotBucket
  · exact ((bytesHeld.grow copyNew.grows).store_of_ne _ bytesNotCopy).store_of_ne _ bytesNotBucket

theorem putHt_spec {key : CString} {content : Nat → UInt8} {ok : Bool}
    (represents : Represents arena ht heads data next dataSize maxKeySize entries)
    (put : arena.putHt h ht key content = some (after, ok)) :
    let key := truncatedKey maxKeySize key
    let i := bucketOf h key
    let entry := (key.truncate maxKeySize.toNat, (List.range dataSize.toNat).map content)
    ok = true ∧ ∃ next, Represents after ht heads data next dataSize maxKeySize
      (Function.update entries i (entry :: entries i)) := by
  dsimp only
  simp only [putHt, represents.loadTable, represents.loadArray, Option.bind_eq_bind,
    Option.bind_some] at put
  generalize truncatedKey maxKeySize key = key at put ⊢
  have inside := bucketOf_lt h key
  generalize slot : bucketOf h key = i at inside ⊢
  rw [← bucketOf, slot, Represents.pointer inside] at put
  simp only [Option.bind_eq_some_iff, Prod.exists] at put
  obtain ⟨first, b, copied, insert⟩ := put
  obtain ⟨grows, bucket, atBucket, atKey, atBytes⟩ := copyBucket_spec copied
  have atSlot : ((List.range initialHtSize).map fun i => sentinel (next i))[i]? =
      some (sentinel (next i)) := by simp [inside]
  obtain ⟨rfl, inserted⟩ := insertLl_spec (represents.elements.grow grows) atSlot
    (copies_bucket _ atBucket) insert
  obtain ⟨ll, copy, atNode, atCopy, atElements⟩ := inserted.linked
  have atData := represents.elements.grow grows
  have kept : ∀ {address cell}, first.Holds address cell →
      (∀ elements, cell ≠ .elements elements) → after.Holds address cell := by
    intro address cell holds other
    refine inserted.kept holds ?_
    rintro rfl
    exact other _ (holds.unique atData)
  have linked : Chain after (some ll)
      ((key.truncate maxKeySize.toNat, (List.range dataSize.toNat).map content) :: entries i) :=
    .cons atNode atCopy (kept atKey (by simp)) (kept atBytes (by simp))
      ((represents.chains i inside).mono fun holds other => kept (holds.grow grows) other)
  have longer := Nat.lt_of_le_of_lt grows.longer inserted.longer
  refine ⟨rfl, Function.update next i (some ll), kept (represents.table.grow grows) (by simp),
    kept (represents.array.grow grows) (by simp), ?_, ?_, ?_⟩
  · rw [Scratch.set_range_map] at atElements
    convert atElements using 4 with index
    by_cases same : index = i
    · subst same
      simp [sentinel]
    · simp [same]
  · intro index bound
    by_cases same : index = i
    · subst same
      simpa using linked
    · simp only [Function.update_of_ne same]
      exact (represents.chains index bound).mono fun holds other => kept (holds.grow grows) other
  · intro index bound
    have before := represents.short index bound
    by_cases same : index = i
    · subst same
      simp only [Function.update_self, List.length_cons]
      omega
    · simp only [Function.update_of_ne same]
      omega

theorem loadBucket_eq {address : Nat} {bucket : Bucket}
    (holds : arena.Holds address (.bucket bucket)) : arena.loadBucket address = some bucket := by
  simp only [loadBucket, holds.2]

theorem lookupHt_spec {f : CString → CString → Bool} (k : CString)
    (represents : Represents arena ht heads data next dataSize maxKeySize entries) :
    ∃ found, arena.lookupHt h f ht k = some found ∧
      found.map arena.cells =
        ((entries (bucketOf h k)).find? fun entry => f entry.1 k).map fun entry =>
          .bytes entry.2 := by
  have inside := bucketOf_lt h k
  have slot : arena.loadNode (.element data (bucketOf h k)) =
      some (sentinel (next (bucketOf h k))) := by
    rw [loadNode_element represents.elements]
    simp [inside]
  simp only [lookupHt, represents.loadTable, represents.loadArray, Option.bind_eq_bind,
    Option.bind_some]
  rw [← bucketOf, Represents.pointer inside]
  simp only [searchLl, slot, Option.bind_eq_bind, Option.bind_some]
  have compares : ∀ {copy bucket key}, arena.Holds copy (.bucket bucket) →
      arena.Holds bucket.key (.chars key) →
        ((arena.loadBucket copy).bind fun bucket =>
          (arena.loadChars bucket.key).bind fun stored => some (f stored k)) = some (f key k) := by
    intro copy bucket key bucketAt keyAt
    simp only [loadBucket_eq bucketAt, loadChars, keyAt.2, Option.bind_some]
  rcases searchNodes_spec (represents.chains _ inside)
    (Nat.lt_succ_of_le (represents.short _ inside)) compares with
    ⟨found, missing⟩ | ⟨copy, bucket, entry, found, first, bucketAt, dataAt⟩
  · exact ⟨none, by simp [sentinel, found], by simp [missing]⟩
  · refine ⟨some bucket.data, ?_, ?_⟩
    · simp [sentinel, found, loadBucket_eq bucketAt]
    · simp [first, dataAt.2]

def bucketsOf (h : CString → UInt32) (history : List Entry) (i : Nat) : List Entry :=
  history.filter fun entry => bucketOf h entry.1 = i

theorem bucketsOf_cons (entry : Entry) (history : List Entry) :
    Function.update (bucketsOf h history) (bucketOf h entry.1)
        (entry :: bucketsOf h history (bucketOf h entry.1)) =
      bucketsOf h (entry :: history) := by
  funext i
  by_cases same : i = bucketOf h entry.1
  · subst same
    simp [bucketsOf]
  · simp [bucketsOf, Function.update_of_ne same, Ne.symm same]

theorem putAll_spec {history : List Entry} {puts : List (CString × (Nat → UInt8))}
    (represents : Represents arena ht heads data next dataSize maxKeySize (bucketsOf h history))
    (short : ∀ put ∈ puts, put.1.bytes.length < 2 ^ 31)
    (filled : arena.putAll h ht puts = some after) :
    ∃ next, Represents after ht heads data next dataSize maxKeySize
      (bucketsOf h ((puts.map (stored dataSize maxKeySize)).reverse ++ history)) := by
  induction puts generalizing arena next history with
  | nil =>
      obtain rfl := Option.some.inj filled
      exact ⟨next, by simpa using represents⟩
  | cons put puts ih =>
      obtain ⟨key, content⟩ := put
      simp only [putAll, Option.bind_eq_bind, Option.bind_eq_some_iff, Prod.exists] at filled
      obtain ⟨middle, ok, first, rest⟩ := filled
      obtain ⟨rfl, next, grown⟩ := putHt_spec represents first
      rw [truncatedKey_eq (short _ List.mem_cons_self),
        truncate_of_length (keptKey_length _ _)] at grown
      have latest : Represents middle ht heads data next dataSize maxKeySize
          (bucketsOf h (stored dataSize maxKeySize (key, content) :: history)) := by
        rw [← bucketsOf_cons]
        exact grown
      obtain ⟨next, final⟩ := ih latest (fun put member => short put (List.mem_cons_of_mem _ member))
        rest
      exact ⟨next, by simpa using final⟩

end Put

section Refinement

variable {h : CString → UInt32} {f : CString → CString → Bool} {start empty arena : Arena}
  {ht : Nat} {dataSize : UInt32} {maxKeySize : UInt16} {puts : List (CString × (Nat → UInt8))}
  {k : CString}

/-- The data of the latest put whose key is `k` under a renaming of the keys. -/
def latestPut (name : CString → CString) (dataSize : UInt32)
    (puts : List (CString × (Nat → UInt8))) (k : CString) : Option (List UInt8) :=
  (puts.reverse.find? fun put => name put.1 = k).map fun put =>
    (List.range dataSize.toNat).map put.2

theorem find?_bucketsOf (history : List Entry) (k : CString) :
    (bucketsOf h history (bucketOf h k)).find? (fun entry => entry.1 = k) =
      history.find? fun entry => entry.1 = k := by
  rw [bucketsOf, List.find?_filter]
  congr
  funext entry
  by_cases same : entry.1 = k <;> simp [same]

theorem lookupHt_refines (comparator : ∀ stored key, f stored key = true ↔ stored = key)
    (made : start.initHt dataSize maxKeySize = some (empty, ht))
    (short : ∀ put ∈ puts, put.1.bytes.length < 2 ^ 31)
    (filled : empty.putAll h ht puts = some arena) (k : CString) :
    ∃ found, arena.lookupHt h f ht k = some found ∧
      found.map arena.cells = (latestPut (keptKey maxKeySize) dataSize puts k).map .bytes := by
  obtain ⟨heads, data, begun⟩ := initHt_spec made
  have noEntries : Represents empty ht heads data (fun _ => none) dataSize maxKeySize
      (bucketsOf h []) := begun
  obtain ⟨next, represents⟩ := putAll_spec noEntries short filled
  obtain ⟨found, looked, contents⟩ := lookupHt_spec (f := f) k represents
  have equality : (fun entry : Entry => f entry.1 k) = fun entry => decide (entry.1 = k) := by
    funext entry
    rw [Bool.eq_iff_iff, comparator, decide_eq_true_iff]
  refine ⟨found, looked, ?_⟩
  rw [contents, equality, find?_bucketsOf, List.append_nil, ← List.map_reverse, List.find?_map,
    latestPut, Option.map_map, Option.map_map]
  rfl

def Finds (h : CString → UInt32) (f : CString → CString → Bool) (arena : Arena) (ht : Nat)
    (k : CString) (content : List UInt8) : Prop :=
  ∃ address, arena.lookupHt h f ht k = some (some address) ∧ arena.cells address = .bytes content

def runOfBytes (first count : Nat) : CString where
  bytes := (List.range count).map fun i => 1 + (first + i) % 255
  nonNul := by
    intro byte member
    obtain ⟨i, _, rfl⟩ := List.mem_map.mp member
    omega

end Refinement

end Arena

end Gaveta
