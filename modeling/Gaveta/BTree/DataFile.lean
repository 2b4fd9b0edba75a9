import Gaveta.BTree.FileLayout
import Gaveta.BTree.InsertStep
import Gaveta.Library.ByteFile
import Gaveta.Library.Refinement
import Mathlib.Data.Nat.Find

/-! The data file as its functions read and write it, against an array of records. -/

namespace Gaveta

open ByteFile

abbrev RecordBytes := Item sizeofDataRecord

/-- `load_data_record`, when `g_alloc` does or does not give it a block for the record. -/
def loadDataRecord (config : BtreeConfig) (fp : File) (rrn : Rrn) (allocated : Bool) :
    File × Option RecordBytes :=
  if allocated = false then (fp, none)
  else
    let sought := fp.seek (toInt32 (dataOffset config rrn))
    if sought.2 then sought.1.read sizeofDataRecord else (sought.1, none)

/-- `write_data_record`, which writes also where `fseek` has failed. -/
def writeDataRecord (config : BtreeConfig) (fp : File) (d : RecordBytes) (rrn : Rrn) : File :=
  (fp.seek (toInt32 (dataOffset config rrn))).1.write d

/-- `memset(&empty_record, '*', sizeof(data_record))` -/
def emptyRecord : RecordBytes := fun _ => 42

def writeEmptyRecord (config : BtreeConfig) (fp : File) (rrn : Rrn) : File :=
  let sought := fp.seek (dataOffset config rrn : Nat)
  if sought.2 then sought.1.write emptyRecord else sought.1

structure DataIo where
  fp : File
  freeRrn : List Rrn

def dInsert (config : BtreeConfig) (data : DataIo) (d : RecordBytes) (rrn : Rrn) : DataIo :=
  if rrn = noRrn then
    { fp := writeDataRecord config data.fp d (getFreeRrn data.freeRrn).1
      freeRrn := (getFreeRrn data.freeRrn).2 }
  else { data with fp := writeDataRecord config data.fp d rrn }

inductive DataRequest where
  | write (d : RecordBytes) (rrn : Rrn)
  | insert (d : RecordBytes) (rrn : Rrn)
  | load (rrn : Rrn) (allocated : Bool)
  | erase (rrn : Rrn)

def serveData (config : BtreeConfig) (data : DataIo) :
    DataRequest → Option (DataIo × Option RecordBytes)
  | .write d rrn => some ({ data with fp := writeDataRecord config data.fp d rrn }, none)
  | .insert d rrn => some (dInsert config data d rrn, none)
  | .load rrn allocated =>
      let loaded := loadDataRecord config data.fp rrn allocated
      some ({ data with fp := loaded.1 }, loaded.2)
  | .erase rrn => some ({ data with fp := writeEmptyRecord config data.fp rrn }, none)

/-- The number under which `d_insert` stores a record. -/
def slotNumber (free : List Rrn) (rrn : Rrn) : Rrn :=
  if rrn = noRrn then (getFreeRrn free).1 else rrn

/-- An array of records that grows as needed, and a list of numbers for new ones. -/
def recordArray (state : List RecordBytes × List Rrn) :
    DataRequest → (List RecordBytes × List Rrn) × Option RecordBytes
  | .write d rrn => ((put state.1 rrn.toNat d, state.2), none)
  | .insert d rrn =>
      ((put state.1 (slotNumber state.2 rrn).toNat d,
        if rrn = noRrn then state.2.drop 1 else state.2), none)
  | .load rrn allocated => (state, if allocated then state.1[rrn.toNat]? else none)
  | .erase rrn => ((put state.1 rrn.toNat emptyRecord, state.2), none)

def dataStride (config : BtreeConfig) : Nat := sizeofDataRecord + config.schemaSize

def KeepsRecords (config : BtreeConfig) (data : DataIo) (state : List RecordBytes × List Rrn) :
    Prop :=
  HoldsArray (dataStride config) data.fp state.1 ∧ data.freeRrn = state.2

section Small

variable {config : BtreeConfig} {fp : File} {records : List RecordBytes} {rrn : Rrn}

theorem seek_nat (fp : File) (offset : Nat) :
    fp.seek (offset : Int) = ({ fp with position := offset }, true) := by
  rw [File.seek, if_neg (by omega)]
  rfl

theorem seek_record (small : dataStride config * 65535 < 2147483648) :
    fp.seek (toInt32 (dataOffset config rrn)) =
      ({ fp with position := dataStride config * rrn.toNat }, true) := by
  have bound := rrn.toNat_lt
  have largest : dataOffset config rrn ≤ dataStride config * 65535 :=
    Nat.mul_le_mul_left (dataStride config) (by omega)
  rw [(toInt32_eq_iff _).mpr (by omega), seek_nat]
  rfl

theorem stride_fits (config : BtreeConfig) : sizeofDataRecord ≤ dataStride config :=
  Nat.le_add_right ..

theorem writeDataRecord_holds (small : dataStride config * 65535 < 2147483648) (d : RecordBytes)
    (holds : HoldsArray (dataStride config) fp records) :
    HoldsArray (dataStride config) (writeDataRecord config fp d rrn) (put records rrn.toNat d) := by
  rw [writeDataRecord, seek_record small]
  exact (holds.moved _).write (by decide) (stride_fits config) rfl

theorem writeEmptyRecord_holds (holds : HoldsArray (dataStride config) fp records) :
    HoldsArray (dataStride config) (writeEmptyRecord config fp rrn)
      (put records rrn.toNat emptyRecord) := by
  rw [writeEmptyRecord, seek_nat]
  exact (holds.moved _).write (by decide) (stride_fits config) rfl

theorem loadDataRecord_holds (small : dataStride config * 65535 < 2147483648) (allocated : Bool)
    (holds : HoldsArray (dataStride config) fp records) :
    (loadDataRecord config fp rrn allocated).2 =
        (if allocated then records[rrn.toNat]? else none) ∧
      HoldsArray (dataStride config) (loadDataRecord config fp rrn allocated).1 records := by
  cases allocated with
  | false => exact ⟨rfl, holds⟩
  | true =>
      simp only [loadDataRecord, seek_record small, Bool.true_eq_false, ↓reduceIte]
      exact (holds.moved _).read (by decide) (stride_fits config) rfl

theorem serveData_simulates (small : dataStride config * 65535 < 2147483648) :
    Refinement.Simulates (serveData config) recordArray (fun _ _ => True) (KeepsRecords config) := by
  rintro ⟨fp, free⟩ ⟨records, rrns⟩ request ⟨holds, rfl⟩ -
  cases request with
  | write d rrn => exact ⟨_, rfl, writeDataRecord_holds small d holds, rfl⟩
  | insert d rrn =>
      refine ⟨_, rfl, ?_⟩
      rw [dInsert, recordArray, slotNumber]
      by_cases draws : rrn = noRrn
      · rw [if_pos draws, if_pos draws, if_pos draws]
        exact ⟨writeDataRecord_holds small d holds, getFreeRrn_rest free⟩
      · rw [if_neg draws, if_neg draws, if_neg draws]
        exact ⟨writeDataRecord_holds small d holds, rfl⟩
  | load rrn allocated =>
      obtain ⟨found, kept⟩ := @loadDataRecord_holds config fp records rrn small allocated holds
      refine ⟨{ fp := (loadDataRecord config fp rrn allocated).1, freeRrn := free }, ?_, kept, rfl⟩
      rw [serveData, found]
      rfl
  | erase rrn => exact ⟨_, rfl, writeEmptyRecord_holds holds, rfl⟩

end Small

/-- Every request is answered as the array would, whatever the requests are; a load without a block
is answered with nothing. -/
def ActsAsArray (config : BtreeConfig) (free : List Rrn) : Prop :=
  ∀ requests, (Refinement.run (serveData config) { fp := File.empty, freeRrn := free }
      requests).map Prod.snd =
    some (Refinement.specRun recordArray ([], free) requests).2

theorem serveData_array {config : BtreeConfig} (free : List Rrn)
    (small : dataStride config * 65535 < 2147483648) : ActsAsArray config free := by
  intro requests
  have start : KeepsRecords config { fp := File.empty, freeRrn := free } ([], free) :=
    ⟨HoldsArray.empty, rfl⟩
  have admitted : ∀ data, Refinement.Admitted (serveData config) (fun _ _ => True) data requests := by
    intro data
    induction requests generalizing data with
    | nil => trivial
    | cons request rest ih => exact ⟨trivial, fun next output _ => ih next⟩
  obtain ⟨final, ran, _⟩ := (serveData_simulates small).run start (admitted _)
  rw [ran]
  rfl

section Overflow

variable {config : BtreeConfig} {free : List Rrn}

theorem toInt32_neg {offset : Nat} (lower : 2147483648 ≤ offset) (upper : offset < 4294967296) :
    toInt32 offset < 0 := by
  rw [toInt32, Nat.mod_eq_of_lt upper, if_neg (by omega)]
  omega

theorem dataOffset_ofNat {number : Nat} (small : number ≤ 65535) :
    dataOffset config (UInt16.ofNat number) = dataStride config * number := by
  rw [dataOffset, UInt16.toNat_ofNat', Nat.mod_eq_of_lt (by omega)]
  rfl

theorem exists_negative (large : 2147483648 ≤ dataStride config * 65535)
    (bounded : dataStride config < 4294967296) :
    ∃ rrn : Rrn, toInt32 (dataOffset config rrn) < 0 := by
  have found : ∃ number, 2147483648 ≤ dataStride config * number := ⟨65535, large⟩
  have last := Nat.find_min' found large
  have spec := Nat.find_spec found
  refine ⟨UInt16.ofNat (Nat.find found), ?_⟩
  rw [dataOffset_ofNat last]
  refine toInt32_neg spec ?_
  have positive : Nat.find found ≠ 0 := by
    intro zero
    rw [zero] at spec
    omega
  have step : dataStride config * Nat.find found =
      dataStride config * (Nat.find found - 1) + dataStride config := by
    rw [← Nat.mul_succ, Nat.succ_eq_add_one, Nat.sub_add_cancel (by omega)]
  have before := Nat.find_min found (show Nat.find found - 1 < Nat.find found by omega)
  by_cases one : Nat.find found = 1
  · rwa [one, Nat.mul_one]
  · have half : dataStride config ≤ dataStride config * (Nat.find found - 1) :=
      Nat.le_mul_of_pos_right _ (by omega)
    omega

theorem loadDataRecord_overflow {fp : File} {rrn : Rrn}
    (negative : toInt32 (dataOffset config rrn) < 0) :
    (loadDataRecord config fp rrn true).2 = none := by
  simp only [loadDataRecord, File.seek, negative, Bool.true_eq_false, Bool.false_eq_true, ↓reduceIte]

theorem not_array_of_negative {rrn : Rrn} (negative : toInt32 (dataOffset config rrn) < 0) :
    ¬ActsAsArray config free := by
  intro answers
  have both := answers [.write emptyRecord rrn, .load rrn true]
  have inside : rrn.toNat < (put [] rrn.toNat emptyRecord).length := by
    rw [length_put]
    omega
  simp only [Refinement.run, serveData, loadDataRecord_overflow negative, Refinement.specRun,
    recordArray, List.getElem?_eq_getElem inside, getElem_put, ↓reduceIte] at both
  cases both

theorem not_array_of_wrapped (lower : 4294967296 ≤ dataStride config)
    (upper : dataStride config < 4294967312) : ¬ActsAsArray config free := by
  intro answers
  obtain ⟨shift, below, stride⟩ : ∃ shift < 16, dataStride config = 4294967296 + shift :=
    ⟨dataStride config - 4294967296, by omega, by omega⟩
  have first : toInt32 (dataOffset config 0) = (0 : Nat) := by
    rw [show dataOffset config 0 = 0 from Nat.mul_zero _]
    rfl
  have second : toInt32 (dataOffset config 1) = (shift : Nat) := by
    have offset : dataOffset config 1 = 4294967296 + shift :=
      (Nat.mul_one (dataStride config)).trans stride
    rw [offset, toInt32]
    have low : (4294967296 + shift) % 4294967296 = shift := by omega
    rw [low, if_pos (by omega)]
  have both := answers [.write (fun _ => 0) 0, .write emptyRecord 1, .load 0 true]
  have last : (loadDataRecord config (writeDataRecord config
      (writeDataRecord config File.empty (fun _ => 0) 0) emptyRecord 1) 0 true).2 =
      some fun _ => 0 := by
    have lists := Option.some.inj both
    exact (List.cons.inj (List.cons.inj (List.cons.inj lists).2).2).1
  simp only [loadDataRecord, writeDataRecord, first, second, seek_nat, Bool.true_eq_false,
    ↓reduceIte] at last
  rw [File.read, if_pos (by simp [File.write, File.empty])] at last
  have byte := congrFun (Option.some.inj last) ⟨shift, below⟩
  simp [File.write, emptyRecord, sizeofDataRecord] at byte

end Overflow

/-- The data file of a new tree answers every sequence of requests as an array of records does
exactly if the offset of the last record number fits an `int`. -/
theorem data_file_is_array_iff (config : BtreeConfig) (free : List Rrn)
    (bounded : config.schemaSize < 4294967296) :
    ActsAsArray config free ↔ dataStride config * 65535 < 2147483648 := by
  constructor
  · intro answers
    by_contra large
    have stride : dataStride config = 16 + config.schemaSize := rfl
    by_cases wrapped : dataStride config < 4294967296
    · obtain ⟨rrn, negative⟩ := exists_negative (by omega) wrapped
      exact not_array_of_negative negative answers
    · exact not_array_of_wrapped (by omega) (by omega) answers
  · exact serveData_array free

theorem data_file_is_array_iff_small :
    ActsAsArray { schemaSize := 64, order := 3, rootRrn := 0, headerSize := 0 } [1, 2] ∧
      ¬ActsAsArray { schemaSize := 40000, order := 3, rootRrn := 0, headerSize := 0 } [1, 2] := by
  constructor
  · exact (data_file_is_array_iff _ [1, 2] (by decide)).mpr (by decide)
  · intro answers
    exact absurd ((data_file_is_array_iff _ [1, 2] (by decide)).mp answers) (by decide)

def storeAll (records : List RecordBytes) : List (Rrn × RecordBytes) → List RecordBytes
  | [] => records
  | (rrn, d) :: rest => storeAll (put records rrn.toNat d) rest

section Inserted

variable {records : List RecordBytes} {free : List Rrn}

theorem getElem?_put {index k : Nat} {d : RecordBytes} :
    (put records index d)[k]? =
      if k = index then some d
      else if k < index ∧ records.length ≤ k then some fun _ => 0
      else records[k]? := by
  by_cases inside : k < (put records index d).length
  · rw [List.getElem?_eq_getElem inside, getElem_put]
    rw [length_put] at inside
    split_ifs <;> simp_all <;> omega
  · rw [List.getElem?_eq_none (by omega)]
    rw [length_put] at inside
    rw [if_neg (by omega), if_neg (by omega), List.getElem?_eq_none (by omega)]

theorem storeAll_other {pairs : List (Rrn × RecordBytes)} {rrn : Rrn} {d : RecordBytes}
    (stored : records[rrn.toNat]? = some d) (other : ∀ pair ∈ pairs, pair.1 ≠ rrn) :
    (storeAll records pairs)[rrn.toNat]? = some d := by
  induction pairs generalizing records with
  | nil => exact stored
  | cons pair rest ih =>
      obtain ⟨number, content⟩ := pair
      refine ih ?_ fun pair member => other pair (List.mem_cons_of_mem _ member)
      have different : rrn.toNat ≠ number.toNat := fun same =>
        other (number, content) (by simp) (UInt16.toNat_inj.mp same.symm)
      have known : rrn.toNat < records.length := by
        by_contra beyond
        rw [List.getElem?_eq_none (by omega)] at stored
        cases stored
      rw [getElem?_put, if_neg different, if_neg (by omega), stored]

theorem storeAll_mem {pairs : List (Rrn × RecordBytes)} (distinct : (pairs.map Prod.fst).Nodup)
    {rrn : Rrn} {d : RecordBytes} (member : (rrn, d) ∈ pairs) :
    (storeAll records pairs)[rrn.toNat]? = some d := by
  induction pairs generalizing records with
  | nil => cases member
  | cons pair rest ih =>
      rw [List.map_cons, List.nodup_cons] at distinct
      rcases List.mem_cons.mp member with rfl | member
      · have stored : (put records rrn.toNat d)[rrn.toNat]? = some d := by
          rw [getElem?_put, if_pos rfl]
        rw [storeAll]
        refine storeAll_other stored fun pair inside same => distinct.1 ?_
        exact List.mem_map.mpr ⟨pair, inside, same⟩
      · exact ih distinct.2 member

theorem storeAll_same {pairs : List (Rrn × RecordBytes)} {rrn : Rrn} {d : RecordBytes}
    (equal : ∀ pair ∈ pairs, pair.2 = d) (member : rrn ∈ pairs.map Prod.fst) :
    (storeAll records pairs)[rrn.toNat]? = some d := by
  induction pairs generalizing records with
  | nil => cases member
  | cons pair rest ih =>
      have others := fun pair inside => equal pair (List.mem_cons_of_mem _ inside)
      by_cases later : rrn ∈ rest.map Prod.fst
      · exact ih others later
      · have own : rrn = pair.1 := by simpa [later] using member
        have content : pair.2 = d := equal pair (by simp)
        have stored : (put records pair.1.toNat pair.2)[rrn.toNat]? = some d := by
          rw [getElem?_put, own, if_pos rfl, content]
        rw [storeAll]
        refine storeAll_other stored fun pair inside same => later ?_
        exact List.mem_map.mpr ⟨pair, inside, same⟩

theorem storeAll_append (pairs later : List (Rrn × RecordBytes)) :
    storeAll records (pairs ++ later) = storeAll (storeAll records pairs) later := by
  induction pairs generalizing records with
  | nil => rfl
  | cons pair rest ih => exact ih

theorem inserts_store (ds : List RecordBytes) :
    (Refinement.specRun recordArray (records, free) (ds.map fun d => .insert d noRrn)).1 =
      (storeAll records ((handedOut free ds.length).zip ds), free.drop ds.length) := by
  induction ds generalizing records free with
  | nil => simp [Refinement.specRun, handedOut_zero, storeAll]
  | cons d rest ih =>
      rw [List.map_cons, Refinement.specRun, List.length_cons, handedOut_succ, List.zip_cons_cons]
      simp only [recordArray, slotNumber, ↓reduceIte]
      rw [ih, storeAll, getFreeRrn_rest, List.drop_drop, Nat.add_comm 1]

theorem loads_read (state : List RecordBytes × List Rrn) (rrns : List Rrn) :
    (Refinement.specRun recordArray state (rrns.map (.load · true))).2 =
      rrns.map fun rrn => state.1[rrn.toNat]? := by
  induction rrns with
  | nil => rfl
  | cons rrn rest ih =>
      rw [List.map_cons, List.map_cons, ← ih]
      rfl

theorem inserts_answer (state : List RecordBytes × List Rrn) (ds : List RecordBytes) :
    (Refinement.specRun recordArray state (ds.map fun d => .insert d noRrn)).2 =
      ds.map fun _ => none := by
  induction ds generalizing state with
  | nil => rfl
  | cons d rest ih =>
      rw [List.map_cons, List.map_cons, ← ih]
      rfl

theorem handedOut_nodup_iff (nodup : free.Nodup) (count : Nat) :
    (handedOut free count).Nodup ↔ count ≤ free.length + if 0 ∈ free then 0 else 1 := by
  by_cases listed : count ≤ free.length
  · refine iff_of_true ?_ (by omega)
    rw [handedOut, Nat.sub_eq_zero_of_le listed, List.replicate_zero, List.append_nil]
    exact nodup.sublist (List.take_sublist ..)
  obtain ⟨extra, rfl⟩ : ∃ extra, count = free.length + (extra + 1) :=
    ⟨count - free.length - 1, by omega⟩
  have beyond : handedOut free (free.length + (extra + 1)) =
      free ++ List.replicate (extra + 1) 0 := by
    simp [handedOut, List.take_of_length_le]
  rw [beyond, List.nodup_append]
  cases extra with
  | zero =>
      by_cases zero : 0 ∈ free
      · refine iff_of_false (fun apart => ?_) (by rw [if_pos zero]; omega)
        exact apart.2.2 0 zero 0 (by simp) rfl
      · simp only [zero, ↓reduceIte, Nat.zero_add, List.replicate_one, le_refl, iff_true]
        refine ⟨nodup, List.nodup_singleton 0, fun rrn member other same equal => zero ?_⟩
        rw [List.mem_singleton.mp same] at equal
        rwa [equal] at member
  | succ extra =>
      refine iff_of_false (fun apart => ?_) (by split_ifs <;> omega)
      have repeated := apart.2.1
      simp [List.replicate_succ] at repeated

theorem exists_repeat {rrns : List Rrn} (repeated : ¬rrns.Nodup) :
    ∃ front rrn back, rrns = front ++ rrn :: back ∧ rrn ∈ back := by
  induction rrns with
  | nil => exact absurd List.nodup_nil repeated
  | cons rrn rest ih =>
      by_cases again : rrn ∈ rest
      · exact ⟨[], rrn, rest, rfl, again⟩
      · obtain ⟨front, other, back, same, member⟩ :=
          ih fun nodup => repeated (List.nodup_cons.mpr ⟨again, nodup⟩)
        exact ⟨rrn :: front, other, back, by rw [same, List.cons_append], member⟩

end Inserted

def KeepsInserted (config : BtreeConfig) (free : List Rrn) (ds : List RecordBytes) : Prop :=
  (Refinement.run (serveData config) { fp := File.empty, freeRrn := free }
      ((ds.map fun d => .insert d noRrn) ++
        (handedOut free ds.length).map (.load · true))).map Prod.snd =
    some ((ds.map fun _ => none) ++ ds.map some)

section Kept

variable {config : BtreeConfig} {free : List Rrn}

theorem ActsAsArray.keepsInserted_iff (array : ActsAsArray config free) (ds : List RecordBytes) :
    KeepsInserted config free ds ↔
      (handedOut free ds.length).map (fun rrn =>
        (storeAll [] ((handedOut free ds.length).zip ds))[rrn.toNat]?) = ds.map some := by
  rw [KeepsInserted, array, Refinement.specRun_append, inserts_answer, loads_read, inserts_store,
    Option.some.injEq, List.append_cancel_left_eq]

theorem stored_of_nodup {ds : List RecordBytes} (nodup : (handedOut free ds.length).Nodup) :
    (handedOut free ds.length).map (fun rrn =>
      (storeAll [] ((handedOut free ds.length).zip ds))[rrn.toNat]?) = ds.map some := by
  have lengths := handedOut_length free ds.length
  apply List.ext_getElem
  · rw [List.length_map, List.length_map, lengths]
  · intro k inside also
    rw [List.length_map] at inside also
    rw [List.getElem_map, List.getElem_map]
    have pairs : (((handedOut free ds.length).zip ds).map Prod.fst).Nodup := by
      rwa [List.map_fst_zip (by omega)]
    refine storeAll_mem pairs ?_
    rw [List.mem_iff_getElem]
    exact ⟨k, by rw [List.length_zip]; omega, List.getElem_zip ..⟩

theorem not_kept_of_repeat {count : Nat} (array : ActsAsArray config free)
    (repeated : ¬(handedOut free count).Nodup) :
    ∃ ds : List RecordBytes, ds.length = count ∧ ¬KeepsInserted config free ds := by
  obtain ⟨front, rrn, back, same, again⟩ := exists_repeat repeated
  have length := handedOut_length free count
  rw [same, List.length_append, List.length_cons] at length
  let ds : List RecordBytes :=
    List.replicate front.length emptyRecord ++
      (fun _ => 0) :: List.replicate back.length emptyRecord
  have size : ds.length = count := by
    simp only [ds, List.length_append, List.length_replicate, List.length_cons]
    exact length
  refine ⟨ds, size, fun kept => ?_⟩
  rw [array.keepsInserted_iff, size, same] at kept
  have pairs : (front ++ rrn :: back).zip ds =
      front.zip (List.replicate front.length emptyRecord) ++
        (rrn, fun _ => 0) :: back.zip (List.replicate back.length emptyRecord) := by
    rw [List.zip_append (by simp), List.zip_cons_cons]
  have member : rrn ∈ (back.zip (List.replicate back.length emptyRecord)).map Prod.fst := by
    rwa [List.map_fst_zip (by simp)]
  have equal : ∀ pair ∈ back.zip (List.replicate back.length emptyRecord),
      pair.2 = emptyRecord := fun pair inside =>
    List.eq_of_mem_replicate (List.of_mem_zip inside).2
  have last : (storeAll [] ((front ++ rrn :: back).zip ds))[rrn.toNat]? = some emptyRecord := by
    rw [pairs, storeAll_append, storeAll]
    exact storeAll_same equal member
  have own := congrArg (fun answers => answers[front.length]?) kept
  simp [ds, last] at own
  have byte := congrFun own (0 : Fin 16)
  cases byte

end Kept

/-- Every `count` new records are kept exactly if `d_insert` has a number for each: those of the free
list, and once 0. -/
theorem inserted_records_kept_iff (config : BtreeConfig) (free : List Rrn) (count : Nat)
    (small : dataStride config * 65535 < 2147483648) (nodup : free.Nodup) :
    (∀ ds : List RecordBytes, ds.length = count → KeepsInserted config free ds) ↔
      count ≤ free.length + if 0 ∈ free then 0 else 1 := by
  have array := serveData_array free small
  rw [← handedOut_nodup_iff nodup]
  constructor
  · intro kept
    by_contra repeated
    obtain ⟨ds, size, lost⟩ := not_kept_of_repeat array repeated
    exact lost (kept ds size)
  · rintro distinct ds rfl
    exact (array.keepsInserted_iff ds).mpr (stored_of_nodup distinct)

theorem inserted_records_kept_iff_two :
    (∀ ds : List RecordBytes, ds.length = 3 →
      KeepsInserted { schemaSize := 64, order := 3, rootRrn := 0, headerSize := 0 } [1, 2] ds) ∧
    ¬∀ ds : List RecordBytes, ds.length = 4 →
      KeepsInserted { schemaSize := 64, order := 3, rootRrn := 0, headerSize := 0 } [1, 2] ds := by
  constructor
  · exact (inserted_records_kept_iff _ [1, 2] 3 (by decide) (by decide)).mpr (by decide)
  · intro kept
    exact absurd ((inserted_records_kept_iff _ [1, 2] 4 (by decide) (by decide)).mp kept) (by decide)

end Gaveta
