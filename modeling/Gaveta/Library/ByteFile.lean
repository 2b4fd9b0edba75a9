import Mathlib.Tactic.Common

/-! A file of bytes with a position, and an array of equal records at a fixed stride in it. -/

namespace ByteFile

structure File where
  size : Nat
  byte : Nat → UInt8
  position : Nat

abbrev Item (n : Nat) := Fin n → UInt8

namespace File

def empty : File := { size := 0, byte := fun _ => 0, position := 0 }

/-- Moves the position, or leaves it where it is if the offset is negative. -/
def seek (file : File) (offset : Int) : File × Bool :=
  if offset < 0 then (file, false) else ({ file with position := offset.toNat }, true)

/-- Reads a whole item; nothing if the file ends before. -/
def read (n : Nat) (file : File) : File × Option (Item n) :=
  if file.position + n ≤ file.size then
    ({ file with position := file.position + n }, some fun i => file.byte (file.position + i))
  else ({ file with position := max file.position file.size }, none)

def write {n : Nat} (file : File) (item : Item n) : File :=
  { size := max file.size (file.position + n)
    byte := fun k =>
      if inside : file.position ≤ k ∧ k < file.position + n then
        item ⟨k - file.position, by omega⟩
      else if k < file.size then file.byte k else 0
    position := file.position + n }

end File

/-- The array after an item is stored at an index, with zeros for the indexes that it skips. -/
def put {n : Nat} (records : List (Item n)) (index : Nat) (item : Item n) : List (Item n) :=
  (records ++ List.replicate (index + 1 - records.length) fun _ => 0).set index item

/-- The file is this array, each record at a multiple of the stride. -/
structure HoldsArray {n : Nat} (stride : Nat) (file : File) (records : List (Item n)) : Prop where
  size : file.size = if records = [] then 0 else stride * (records.length - 1) + n
  bytes : ∀ index (inside : index < records.length), ∀ i : Fin n,
    file.byte (stride * index + i) = records[index] i

section Array

variable {n stride index : Nat} {file : File} {records : List (Item n)} {item : Item n}

theorem length_put : (put records index item).length = max records.length (index + 1) := by
  simp only [put, List.length_set, List.length_append, List.length_replicate]
  omega

theorem put_ne_nil : put records index item ≠ [] := by
  have length := @length_put n index records item
  intro empty
  rw [empty, List.length_nil] at length
  omega

theorem getElem_put {k : Nat} (inside : k < (put records index item).length) :
    (put records index item)[k] =
      if k = index then item else if known : k < records.length then records[k] else fun _ => 0 := by
  simp only [put, List.getElem_set]
  by_cases own : index = k
  · simp [own]
  · rw [if_neg own, if_neg (Ne.symm own)]
    split
    · rename_i known
      rw [List.getElem_append_left known]
    · rename_i unknown
      rw [List.getElem_append_right (by omega), List.getElem_replicate]

theorem HoldsArray.empty : HoldsArray stride File.empty ([] : List (Item n)) :=
  ⟨rfl, fun index inside => absurd inside (Nat.not_lt_zero index)⟩

theorem HoldsArray.moved (holds : HoldsArray stride file records) (position : Nat) :
    HoldsArray stride { file with position := position } records :=
  ⟨holds.size, holds.bytes⟩

theorem stride_succ_le {first second : Nat} (before : first < second) :
    stride * first + stride ≤ stride * second := by
  have step := Nat.mul_le_mul_left stride (Nat.succ_le_of_lt before)
  rwa [Nat.mul_succ] at step

theorem HoldsArray.reaches_iff (holds : HoldsArray stride file records) (positive : 0 < n)
    (fits : n ≤ stride) :
    stride * index + n ≤ file.size ↔ index < records.length := by
  rw [holds.size]
  by_cases none : records = []
  · simp only [none, ↓reduceIte, List.length_nil, Nat.not_lt_zero, iff_false]
    omega
  · rw [if_neg none]
    have length : 0 < records.length := List.length_pos_iff.mpr none
    constructor
    · intro inside
      by_contra beyond
      have step := @stride_succ_le stride (records.length - 1) index (by omega)
      omega
    · intro inside
      have step := Nat.mul_le_mul_left stride (show index ≤ records.length - 1 by omega)
      omega

theorem HoldsArray.read (holds : HoldsArray stride file records) (positive : 0 < n) (fits : n ≤ stride)
    (at_index : file.position = stride * index) :
    (file.read n).2 = records[index]? ∧ HoldsArray stride (file.read n).1 records := by
  rw [File.read, at_index]
  by_cases inside : index < records.length
  · rw [if_pos ((holds.reaches_iff positive fits).mpr inside), List.getElem?_eq_getElem inside]
    refine ⟨congrArg some (funext fun i => holds.bytes index inside i), holds.size, holds.bytes⟩
  · rw [if_neg fun reaches => inside ((holds.reaches_iff positive fits).mp reaches),
      List.getElem?_eq_none (by omega)]
    exact ⟨rfl, holds.size, holds.bytes⟩

theorem HoldsArray.write (holds : HoldsArray stride file records) (positive : 0 < n)
    (fits : n ≤ stride)
    (at_index : file.position = stride * index) :
    HoldsArray stride (file.write item) (put records index item) := by
  constructor
  · have size : (file.write item).size = max file.size (file.position + n) := rfl
    rw [if_neg put_ne_nil, length_put, size, holds.size, at_index]
    by_cases none : records = []
    · simp [none]
    · rw [if_neg none]
      have length : 0 < records.length := List.length_pos_iff.mpr none
      rcases Nat.lt_or_ge index records.length with known | unknown
      · have step := Nat.mul_le_mul_left stride (show index ≤ records.length - 1 by omega)
        rw [Nat.max_eq_left (by omega), Nat.max_eq_left (by omega)]
      · have step := Nat.mul_le_mul_left stride (show records.length - 1 ≤ index by omega)
        rw [Nat.max_eq_right (by omega), Nat.max_eq_right (by omega), Nat.add_sub_cancel]
  · intro k inside i
    rw [getElem_put]
    have below := i.isLt
    simp only [File.write, at_index]
    by_cases own : k = index
    · subst own
      rw [dif_pos ⟨by omega, by omega⟩, if_pos rfl]
      congr 1
      ext
      simp
    · have apart : ¬(stride * index ≤ stride * k + i ∧ stride * k + i < stride * index + n) := by
        rcases Nat.lt_or_gt_of_ne own with before | after
        · have step := @stride_succ_le stride k index before
          omega
        · have step := @stride_succ_le stride index k after
          omega
      rw [dif_neg apart, if_neg own]
      by_cases known : k < records.length
      · have reaches := (holds.reaches_iff positive fits).mpr known
        rw [if_pos (by omega), dif_pos known, holds.bytes k known i]
      · have beyond : ¬stride * k + i < file.size := by
          rw [holds.size]
          split_ifs with none
          · omega
          · have length : 0 < records.length := List.length_pos_iff.mpr none
            have step := @stride_succ_le stride (records.length - 1) k (by omega)
            omega
        rw [if_neg beyond, dif_neg known]

end Array

end ByteFile
