import Gaveta.BTree.InsertRun
import Gaveta.BTree.Keeps

/-! Building the index again from the records of the data file. -/

namespace Gaveta

open PagedTree

/-- The bytes behind a pointer, with a zero byte behind the last one. -/
abbrev Buffer := List UInt8

/-- What is behind the pointers in use; nothing is behind two of them. -/
abbrev Buffers := Nat → Buffer

namespace Buffer

def text (buffer : Buffer) : Buffer := buffer.takeWhile fun byte => decide (byte ≠ 0)

/-- `strncpy`: zeros behind a shorter string, no terminator behind a longer one. -/
def strncpy (dest src : Buffer) (n : Nat) : Buffer :=
  src.text.take n ++ List.replicate (n - src.text.length) 0 ++ dest.drop n

theorem text_nonNul (buffer : Buffer) : ∀ byte ∈ buffer.text, decide (byte ≠ 0) = true := by
  intro byte member
  simpa using List.mem_takeWhile_imp member

theorem text_text (buffer : Buffer) : buffer.text.text = buffer.text :=
  List.takeWhile_eq_self_iff.mpr buffer.text_nonNul

theorem strncpy_short {dest src : Buffer} {n : Nat} (short : src.text.length < n) :
    (strncpy dest src n).text = src.text := by
  obtain ⟨rest, room⟩ : ∃ rest, n - src.text.length = rest + 1 := ⟨n - src.text.length - 1, by omega⟩
  rw [strncpy, List.take_of_length_le (by omega), room, List.replicate_succ, text,
    List.append_assoc, List.takeWhile_append_of_pos src.text_nonNul, List.cons_append,
    List.takeWhile_cons_of_neg (by simp), List.append_nil]

theorem strncpy_long {dest src : Buffer} {n : Nat} (long : n ≤ src.text.length) :
    strncpy dest src n = src.text.take n ++ dest.drop n := by
  rw [strncpy, Nat.sub_eq_zero_of_le long, List.replicate_zero, List.append_nil]

theorem strncpy_congr {src other : Buffer} (same : src.text = other.text) (dest : Buffer) (n : Nat) :
    strncpy dest src n = strncpy dest other n := by
  rw [strncpy, strncpy, same]

theorem strncpy_self (buffer : Buffer) (n : Nat) : (strncpy buffer buffer n).text = buffer.text := by
  rcases Nat.lt_or_ge buffer.text.length n with short | long
  · exact strncpy_short short
  · have front : buffer.text.take n = buffer.take n := by
      obtain ⟨rest, split⟩ := List.takeWhile_prefix (l := buffer) fun byte => decide (byte ≠ 0)
      conv_rhs => rw [← split]
      exact (List.take_append_of_le_length long).symm
    rw [strncpy_long long, front, List.take_append_drop]

end Buffer

structure RawKey where
  id : Nat
  keySize : Nat

structure DataRecord where
  data : List UInt8
  k : RawKey

/-- `populate_key`: the memory after the call, and the key as it reads then. -/
def populateKey (memory : Buffers) (k : RawKey) (d : DataRecord) (rrn : Rrn) : Buffers × Key :=
  let memory :=
    Function.update memory k.id (Buffer.strncpy (memory k.id) (memory d.k.id) k.keySize)
  (memory, { id := CString.ofBuffer (memory k.id), dataRegisterRrn := rrn })

/-- The key of record `rrn` has the pointer of `new_key` in the call for that record. -/
def idBehind (memory : Buffers) (newKey : Nat → RawKey) (rrn : Rrn) : CString :=
  CString.ofBuffer (memory (newKey rrn.toNat).id)

/-- The nodes keep the pointers of their keys: the ids are what is behind these now. -/
def Resident.reread (memory : Buffers) (newKey : Nat → RawKey) (s : Resident) : Resident :=
  { s with
    nodes := fun p => (s.nodes p).map fun node =>
      { node with
        keys := node.keys.map fun key =>
          { key with id := idBehind memory newKey key.dataRegisterRrn } } }

/-- The loop of `build_tree_from_data_file` from record `i` on.  Nothing writes to `k`, the key of
`record`, nor to `newKey`, the key on the stack of each call. -/
def insertRecords (k : RawKey) (newKey : Nat → RawKey) :
    Nat → Buffers → BTree Resident Rrn → List (List UInt8) → Buffers × BTree Resident Rrn
  | _, memory, b, [] => (memory, b)
  | i, memory, b, data :: rest =>
      let populated := populateKey memory (newKey i) { data := data, k := k } i.toUInt16
      let b := { b with io := b.io.reread populated.1 newKey }
      let inserted := bInsert residentPager b populated.2.id populated.2.dataRegisterRrn
      match inserted.2 with
      | none => (populated.1, inserted.1)
      | some _ => insertRecords k newKey (i + 1) populated.1 inserted.1 rest

def buildTreeFromDataFile (memory : Buffers) (b : BTree Resident Rrn) (k : RawKey)
    (newKey : Nat → RawKey) (file : List (List UInt8)) : Buffers × BTree Resident Rrn :=
  insertRecords k newKey 0 memory b file

def Key.entry (key : Key) : CString × Rrn := (key.id, key.dataRegisterRrn)

def recordKeys (keyOf : List UInt8 → CString) (i : Nat) (file : List (List UInt8)) : List Key :=
  (file.zipIdx i).map fun entry => { id := keyOf entry.1, dataRegisterRrn := entry.2.toUInt16 }

def HoldsExactly (b : BTree Resident Rrn) (keys : List Key) : Prop :=
  (keys = [] ∧ b.root = none) ∨
    ∃ height tree, b.root = some (label height tree) ∧ Represents b.io.nodes height tree ∧
      (records height tree).Perm keys

section Keys

def HoldsOnly (allowed : Key → Prop) (s : Resident) : Prop :=
  ∀ p, ∀ key ∈ (s.read p).keys, allowed key

theorem HoldsOnly.store {allowed : Key → Prop} {s : Resident} {p : Rrn} {node : BtreeNode}
    (only : HoldsOnly allowed s) (keys : ∀ key ∈ node.keys, allowed key) :
    HoldsOnly allowed (s.store p node) := by
  intro other key member
  rw [read_store] at member
  split_ifs at member
  · exact keys key member
  · exact only other key member

theorem HoldsOnly.drop {allowed : Key → Prop} {s : Resident} (only : HoldsOnly allowed s)
    (p : Rrn) : HoldsOnly allowed (s.drop p) := by
  intro other key member
  by_cases same : other = p
  · simp [Resident.read, same] at member
  · refine only other key ?_
    simpa [Resident.read, same] using member

theorem residentPager_holdsOnly (allowed : Key → Prop) :
    residentPager.Keeps none allowed (HoldsOnly allowed) where
  keys p only := only p
  setNode only _ keys := only.store keys
  halves only _ left right := (only.store right).store left
  allocBtreeNode only keys := only.store keys
  allocated _ _ := by simp
  clearBtreeNode p only _ := only.drop p
  loadBtreeNode _ only _ := only
  writeIndexRecord _ only _ := only
  getFreeRrn only := only
  insertFreeRrn _ only := only
  writeTombstone _ only := only

end Keys

theorem toUInt16_inj {first second : Nat} (firstBound : first < 65536) (secondBound : second < 65536)
    (same : first.toUInt16 = second.toUInt16) : first = second := by
  have value := congrArg UInt16.toNat same
  simp only [Nat.toUInt16_eq, UInt16.toNat_ofNat'] at value
  omega

theorem firstRrn_eq_some_iff {entries : List (CString × Rrn)}
    (distinct : (entries.map Prod.fst).Nodup) (id : CString) (rrn : Rrn) :
    firstRrn entries id = some rrn ↔ (id, rrn) ∈ entries := by
  induction entries with
  | nil => simp [firstRrn]
  | cons entry rest ih =>
      simp only [List.map_cons, List.nodup_cons] at distinct
      have later := ih distinct.2
      by_cases same : entry.1 = id
      · subst same
        have outside : (entry.1, rrn) ∉ rest := fun member =>
          distinct.1 (List.mem_map.mpr ⟨_, member, rfl⟩)
        simp [firstRrn, outside, Prod.ext_iff, eq_comm]
      · have other : (id, rrn) ≠ entry := by
          rintro rfl
          exact same rfl
        rw [firstRrn, List.find?_cons_of_neg (by simpa using same), ← firstRrn, later]
        simp [other]

theorem records_nodup {height : Nat} {tree : Tree Rrn Key height}
    (search : SearchTree Key.id height tree) : (records height tree).Nodup := by
  have sorted := search.inOrder
  rw [records_eq_filterMap]
  refine List.Pairwise.filterMap _ ?_ sorted
  intro first second before left leftRecord right rightRecord
  cases first with
  | separator value => cases leftRecord
  | record value =>
      cases second with
      | separator other => cases rightRecord
      | record other =>
          cases leftRecord
          cases rightRecord
          rintro rfl
          exact lt_irrefl _ before

section Rebuild

variable {keyOf : List UInt8 → CString} {memory : Buffers} {k : RawKey} {newKey : Nat → RawKey}
  {file : List (List UInt8)} {b : BTree Resident Rrn} {i : Nat}

/-- The bytes that `strncpy` leaves of `src` and `dest` spell the key. -/
def SpelledBy (src dest : Buffer) (n : Nat) (key : CString) : Prop :=
  (src.text.length < n ∧ key = CString.ofBuffer src) ∨
    (n ≤ src.text.length ∧ key = CString.ofBuffer (src.text.take n ++ dest.drop n))

/-- The stale pointers `new_key.id` differ, and the stale bytes behind each of them and behind
`record->k->id` spell the key of its record. -/
structure StaleKeysOwn (keyOf : List UInt8 → CString) (memory : Buffers) (k : RawKey)
    (newKey : Nat → RawKey) (file : List (List UInt8)) : Prop where
  apart : ∀ i j, i < file.length → j < file.length → (newKey i).id = (newKey j).id → i = j
  own : ∀ i data, file[i]? = some data →
    SpelledBy (memory k.id) (memory (newKey i).id) (newKey i).keySize (keyOf data)

theorem spelledBy_iff (src dest : Buffer) (n : Nat) (key : CString) :
    SpelledBy src dest n key ↔ CString.ofBuffer (Buffer.strncpy dest src n) = key := by
  rcases Nat.lt_or_ge src.text.length n with short | long
  · have same : CString.ofBuffer (Buffer.strncpy dest src n) = CString.ofBuffer src :=
      CString.ofBuffer_congr (Buffer.strncpy_short short)
    simp [SpelledBy, short, not_le.mpr short, same, eq_comm]
  · simp [SpelledBy, long, not_lt.mpr long, Buffer.strncpy_long long, eq_comm]

def memoryAfter (memory : Buffers) (k : RawKey) (newKey : Nat → RawKey) : Nat → Buffers
  | 0 => memory
  | i + 1 =>
      let memory := memoryAfter memory k newKey i
      Function.update memory (newKey i).id
        (Buffer.strncpy (memory (newKey i).id) (memory k.id) (newKey i).keySize)

theorem populateKey_eq (data : List UInt8) (rrn : Rrn) :
    populateKey (memoryAfter memory k newKey i) (newKey i) { data := data, k := k } rrn =
      (memoryAfter memory k newKey (i + 1),
        ⟨CString.ofBuffer (memoryAfter memory k newKey (i + 1) (newKey i).id), rrn⟩) := rfl

theorem memoryAfter_apart {n : Nat}
    (apart : ∀ i j, i < n → j < n → (newKey i).id = (newKey j).id → i = j) (count : Nat)
    (most : count ≤ n) :
    (∀ j < n, memoryAfter memory k newKey count (newKey j).id =
      if j < count then Buffer.strncpy (memory (newKey j).id) (memory k.id) (newKey j).keySize
      else memory (newKey j).id) ∧
    (memoryAfter memory k newKey count k.id).text = (memory k.id).text := by
  induction count with
  | zero => exact ⟨fun j _ => rfl, rfl⟩
  | succ count ih =>
      obtain ⟨buffers, source⟩ := ih (by omega)
      have before := buffers count (by omega)
      rw [if_neg (Nat.lt_irrefl count)] at before
      have written : Buffer.strncpy (memoryAfter memory k newKey count (newKey count).id)
          (memoryAfter memory k newKey count k.id) (newKey count).keySize =
          Buffer.strncpy (memory (newKey count).id) (memory k.id) (newKey count).keySize := by
        rw [before]
        exact Buffer.strncpy_congr source _ _
      rw [memoryAfter, written]
      constructor
      · intro j inside
        by_cases here : j = count
        · rw [here, Function.update_self, if_pos (Nat.lt_succ_self count)]
        · have other : (newKey j).id ≠ (newKey count).id := fun same =>
            here (apart j count inside (by omega) same)
          rw [Function.update_of_ne other, buffers j inside]
          exact if_congr (by omega) rfl rfl
      · by_cases own : k.id = (newKey count).id
        · rw [own, Function.update_self]
          exact Buffer.strncpy_self _ _
        · rw [Function.update_of_ne own]
          exact source

theorem read_reread (s : Resident) (p : Rrn) : ((s.reread memory newKey).read p).keys =
    (s.read p).keys.map fun key =>
      { key with id := idBehind memory newKey key.dataRegisterRrn } := by
  simp only [Resident.read, Resident.reread]
  cases s.nodes p <;> rfl

theorem HoldsOnly.reread {allowed after : Key → Prop} {s : Resident} (only : HoldsOnly allowed s)
    (reads : ∀ key, allowed key →
      after { key with id := idBehind memory newKey key.dataRegisterRrn }) :
    HoldsOnly after (s.reread memory newKey) := by
  intro p key member
  rw [read_reread] at member
  obtain ⟨old, inside, rfl⟩ := List.mem_map.mp member
  exact reads old (only p old inside)

theorem reread_eq {s : Resident}
    (current : HoldsOnly (fun key => key.id = idBehind memory newKey key.dataRegisterRrn) s) :
    s.reread memory newKey = s := by
  have nodes : (s.reread memory newKey).nodes = s.nodes := by
    funext p
    change (s.nodes p).map _ = s.nodes p
    cases found : s.nodes p with
    | none => rfl
    | some node =>
        have read : s.read p = node := by rw [Resident.read, found, Option.getD_some]
        have same : node.keys.map (fun key =>
            { key with id := idBehind memory newKey key.dataRegisterRrn }) = node.keys := by
          refine (List.map_congr_left fun key member => ?_).trans (List.map_id _)
          rw [← current p key (read ▸ member)]
          rfl
        rw [Option.map_some, same]
  calc s.reread memory newKey
      _ = { s with nodes := (s.reread memory newKey).nodes } := rfl
      _ = s := by rw [nodes]

def ReadBefore (memory : Buffers) (newKey : Nat → RawKey) (n : Nat) (key : Key) : Prop :=
  key.id = idBehind memory newKey key.dataRegisterRrn ∧ key.dataRegisterRrn.toNat < n

theorem toNat_toUInt16 {n : Nat} (small : n < 65536) : n.toUInt16.toNat = n := by
  rw [Nat.toUInt16_eq, UInt16.toNat_ofNat', Nat.mod_eq_of_lt small]

theorem insertRecords_reads (short : i + file.length ≤ 65536)
    (only : HoldsOnly (ReadBefore (memoryAfter memory k newKey i) newKey i) b.io) :
    ∃ n ≤ i + file.length,
      HoldsOnly (ReadBefore (memoryAfter memory k newKey n) newKey n)
        (insertRecords k newKey i (memoryAfter memory k newKey i) b file).2.io := by
  induction file generalizing i b with
  | nil => exact ⟨i, le_rfl, only⟩
  | cons data rest ih =>
      rw [List.length_cons] at short
      have place : i.toUInt16.toNat = i := toNat_toUInt16 (by omega)
      have before : HoldsOnly (ReadBefore (memoryAfter memory k newKey (i + 1)) newKey (i + 1))
          (b.io.reread (memoryAfter memory k newKey (i + 1)) newKey) :=
        only.reread fun key known => ⟨rfl, Nat.lt_succ_of_lt known.2⟩
      have inserted := (residentPager_holdsOnly _).bInsert
        (b := { b with io := b.io.reread (memoryAfter memory k newKey (i + 1)) newKey }) (by simp)
        (idBehind (memoryAfter memory k newKey (i + 1)) newKey i.toUInt16) i.toUInt16 before
        ⟨rfl, by rw [place]; exact Nat.lt_succ_self i⟩
      rw [idBehind, place] at inserted
      rw [insertRecords, populateKey_eq]
      dsimp only
      split
      · exact ⟨i + 1, by simp, inserted⟩
      · obtain ⟨n, most, held⟩ := ih (by omega) inserted
        exact ⟨n, by rw [List.length_cons]; omega, held⟩

theorem recordKeys_ids (keyOf : List UInt8 → CString) (file : List (List UInt8)) :
    ((recordKeys keyOf 0 file).map Key.entry).map Prod.fst = file.map keyOf := by
  rw [recordKeys, List.map_map, List.map_map]
  change file.zipIdx.map (keyOf ∘ Prod.fst) = file.map keyOf
  rw [← List.map_map, List.zipIdx_map_fst]

def InsertedBefore (keyOf : List UInt8 → CString) (file : List (List UInt8)) (n : Nat) (key : Key) :
    Prop :=
  ∃ i < n, ∃ data, file[i]? = some data ∧ key = { id := keyOf data, dataRegisterRrn := i.toUInt16 }

namespace StaleKeysOwn

variable (own : StaleKeysOwn keyOf memory k newKey file) (short : file.length ≤ 65535)

include own short

theorem idBehind {count : Nat} {data : List UInt8} (most : count ≤ file.length) (below : i < count)
    (found : file[i]? = some data) :
    idBehind (memoryAfter memory k newKey count) newKey i.toUInt16 = keyOf data := by
  obtain ⟨buffers, _⟩ := @memoryAfter_apart memory k newKey _ own.apart count most
  have buffer := buffers i (by omega)
  rw [if_pos below] at buffer
  rw [Gaveta.idBehind, toNat_toUInt16 (by omega), buffer]
  exact (spelledBy_iff _ _ _ _).mp (own.own i data found)

theorem insertRecords_eq {rest : List (List UInt8)} {count : Nat} (left : file.drop count = rest)
    (only : HoldsOnly (InsertedBefore keyOf file count) b.io) :
    (insertRecords k newKey count (memoryAfter memory k newKey count) b rest).2 =
      insertAll residentPager b ((recordKeys keyOf count rest).map Key.entry) := by
  induction rest generalizing count b with
  | nil => rfl
  | cons data rest ih =>
      have found : file[count]? = some data := by
        rw [← List.head?_drop, left, List.head?_cons]
      have most : count + 1 ≤ file.length := by
        have inside := (List.getElem?_eq_some_iff.mp found).1
        omega
      have later : file.drop (count + 1) = rest := by rw [← List.tail_drop, left, List.tail_cons]
      have reread : b.io.reread (memoryAfter memory k newKey (count + 1)) newKey = b.io := by
        refine reread_eq fun p key member => ?_
        obtain ⟨i, below, other, there, rfl⟩ := only p key member
        exact (own.idBehind short most (Nat.lt_succ_of_lt below) there).symm
      have id := own.idBehind short most (Nat.lt_succ_self count) found
      rw [Gaveta.idBehind, toNat_toUInt16 (by omega)] at id
      have inserted : HoldsOnly (InsertedBefore keyOf file (count + 1))
          (bInsert residentPager b (keyOf data) count.toUInt16).1.io := by
        refine (residentPager_holdsOnly _).bInsert (by simp) _ _ (fun p key member => ?_) ?_
        · obtain ⟨i, below, known⟩ := only p key member
          exact ⟨i, Nat.lt_succ_of_lt below, known⟩
        · exact ⟨count, Nat.lt_succ_self count, data, found, rfl⟩
      have entries : (recordKeys keyOf count (data :: rest)).map Key.entry =
          (keyOf data, count.toUInt16) :: (recordKeys keyOf (count + 1) rest).map Key.entry := rfl
      rw [insertRecords, populateKey_eq, entries, insertAll]
      dsimp only
      rw [reread, id]
      cases (bInsert residentPager b (keyOf data) count.toUInt16).2 with
      | none => rfl
      | some status => exact ih later inserted

end StaleKeysOwn

theorem HoldsExactly.ids {n : Nat} (short : file.length ≤ 65535)
    (holds : HoldsExactly b (recordKeys keyOf 0 file))
    (only : HoldsOnly (ReadBefore memory newKey n) b.io) {data : List UInt8}
    (found : file[i]? = some data) :
    i < n ∧ CString.ofBuffer (memory (newKey i).id) = keyOf data := by
  have inside := (List.getElem?_eq_some_iff.mp found).1
  have listed : { id := keyOf data, dataRegisterRrn := i.toUInt16 } ∈ recordKeys keyOf 0 file :=
    List.mem_map.mpr ⟨(data, i), List.mk_mem_zipIdx_iff_getElem?.mpr found, rfl⟩
  rcases holds with ⟨empty, _⟩ | ⟨height, tree, _, represents, perm⟩
  · rw [empty] at listed
    cases listed
  · obtain ⟨leaf, leafMember, held⟩ := List.mem_flatMap.mp (perm.mem_iff.mpr listed)
    have read := (represents.leaves leaf leafMember).leaf
    obtain ⟨id, below⟩ := only leaf.label _ (by rw [read]; exact held)
    rw [idBehind, toNat_toUInt16 (by omega)] at id
    rw [toNat_toUInt16 (by omega)] at below
    exact ⟨below, id.symm⟩

theorem RunState.holdsExactly {order : Nat} {keys : List Key} {b : BTree Resident Rrn}
    (state : RunState order (keys.map Key.entry) b)
    (distinct : ((keys.map Key.entry).map Prod.fst).Nodup) : HoldsExactly b keys := by
  obtain ⟨_, _, ⟨empty, root, _⟩ | ⟨height, tree, built⟩⟩ := state
  · exact Or.inl ⟨List.map_eq_nil_iff.mp empty, root⟩
  · refine Or.inr ⟨height, tree, built.valid.root, built.valid.represents, ?_⟩
    rw [List.map_map] at distinct
    rw [List.perm_ext_iff_of_nodup (records_nodup built.valid.search) (.of_map _ distinct)]
    intro key
    rw [built.holds, firstRrn_eq_some_iff (by rwa [List.map_map])]
    constructor
    · intro member
      obtain ⟨other, inside, same⟩ := List.mem_map.mp member
      cases key
      cases other
      simp only [Key.entry, Prod.mk.injEq] at same
      rwa [← same.1, ← same.2]
    · exact List.mem_map_of_mem

theorem HoldsExactly.staleKeysOwn {config : BtreeConfig} {free : List Rrn} {ioFails : Nat → Bool}
    (short : file.length ≤ 65535) (keys : (file.map keyOf).Nodup)
    (holds : HoldsExactly (buildTreeFromDataFile memory (allocTreeBuf config free ioFails) k newKey
      file).2 (recordKeys keyOf 0 file)) :
    StaleKeysOwn keyOf memory k newKey file := by
  have start : HoldsOnly (ReadBefore (memoryAfter memory k newKey 0) newKey 0)
      (allocTreeBuf config free ioFails).io := by
    simp [HoldsOnly, allocTreeBuf, Resident.read]
  obtain ⟨n, most, only⟩ :=
    @insertRecords_reads memory k newKey file _ 0 (by omega) start
  rw [Nat.zero_add] at most
  have ids : ∀ i data, file[i]? = some data → i < n ∧
      CString.ofBuffer (memoryAfter memory k newKey n (newKey i).id) = keyOf data :=
    fun i data found => holds.ids short only found
  have apart : ∀ i j, i < file.length → j < file.length →
      (newKey i).id = (newKey j).id → i = j := by
    intro i j inside other same
    have first := (ids i _ (List.getElem?_eq_getElem inside)).2
    have second := (ids j _ (List.getElem?_eq_getElem other)).2
    rw [same, second] at first
    have place : i < (file.map keyOf).length := by rwa [List.length_map]
    have otherPlace : j < (file.map keyOf).length := by rwa [List.length_map]
    refine (@List.Nodup.getElem_inj_iff _ _ keys i place j otherPlace).mp ?_
    rw [List.getElem_map, List.getElem_map, first]
  refine ⟨apart, fun i data found => ?_⟩
  obtain ⟨below, id⟩ := ids i data found
  have buffer := (@memoryAfter_apart memory k newKey _ apart n most).1 i (by omega)
  rw [if_pos below] at buffer
  rw [spelledBy_iff, ← buffer]
  exact id

end Rebuild

def firstByte : List UInt8 → CString := fun data => CString.ofBuffer (data.take 1)

def staleBytes : Buffers
  | 0 => []
  | p + 1 => [(97 + p).toUInt8]

end Gaveta
