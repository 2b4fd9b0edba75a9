import Gaveta.BTree.Pager

/-! Where the two files hold the slot of a record number, as each function computes it. -/

namespace Gaveta

/-- Two pointers, three `u16` and five bytes, padded to 8 bytes. -/
def sizeofBtreeNode : Nat := 32

def sizeofDataRecord : Nat := 16

def toInt32 (offset : Nat) : Int :=
  let low := offset % 4294967296
  if low < 2147483648 then low else (low : Int) - 4294967296

structure Region where
  offset : Int
  length : Nat
deriving DecidableEq

def Region.Apart (left right : Region) : Prop :=
  left.offset + left.length ≤ right.offset ∨ right.offset + right.length ≤ left.offset

def loadBtreeNodeRegion (rrn : Rrn) : Region :=
  { offset := sizeofBtreeNode * rrn.toNat, length := sizeofBtreeNode }

def indexOffset (config : BtreeConfig) (rrn : Rrn) : Nat :=
  (sizeofBtreeNode + config.schemaSize) * rrn.toNat

def writeIndexRecordRegion (config : BtreeConfig) (rrn : Rrn) : Region :=
  { offset := toInt32 (indexOffset config rrn), length := sizeofBtreeNode }

def dataOffset (config : BtreeConfig) (rrn : Rrn) : Nat :=
  (sizeofDataRecord + config.schemaSize) * rrn.toNat

def loadDataRecordRegion (config : BtreeConfig) (rrn : Rrn) : Region :=
  { offset := toInt32 (dataOffset config rrn), length := sizeofDataRecord }

def writeDataRecordRegion (config : BtreeConfig) (rrn : Rrn) : Region :=
  { offset := toInt32 (dataOffset config rrn), length := sizeofDataRecord }

/-- The tombstone of `b_remove`, whose offset does not become an `int`. -/
def tombstoneRegion (config : BtreeConfig) (rrn : Rrn) : Region :=
  { offset := dataOffset config rrn, length := sizeofDataRecord }

/-- The position of the data file before `build_tree_from_data_file` reads its record `n`. -/
def buildPosition (config : BtreeConfig) : Nat → Nat
  | 0 => config.headerSize
  | n + 1 => buildPosition config n + config.schemaSize

def buildTreeRegion (config : BtreeConfig) (rrn : Rrn) : Region :=
  { offset := buildPosition config rrn.toNat, length := config.schemaSize }

def indexRegions (config : BtreeConfig) (rrn : Rrn) : List Region :=
  [loadBtreeNodeRegion rrn, writeIndexRecordRegion config rrn]

def dataRegions (config : BtreeConfig) (rrn : Rrn) : List Region :=
  [buildTreeRegion config rrn, loadDataRecordRegion config rrn, writeDataRecordRegion config rrn,
    tombstoneRegion config rrn]

structure LayoutAgrees (config : BtreeConfig) (rrn : Rrn) : Prop where
  index : loadBtreeNodeRegion rrn = writeIndexRecordRegion config rrn
  data : ∀ region ∈ dataRegions config rrn, region = writeDataRecordRegion config rrn
  indexApart : ∀ other ≠ rrn, ∀ left ∈ indexRegions config rrn,
    ∀ right ∈ indexRegions config other, left.Apart right
  dataApart : ∀ other ≠ rrn, ∀ left ∈ dataRegions config rrn,
    ∀ right ∈ dataRegions config other, left.Apart right
  indexInt : toInt32 (indexOffset config rrn) = indexOffset config rrn
  dataInt : toInt32 (dataOffset config rrn) = dataOffset config rrn

theorem toInt32_eq_iff (offset : Nat) : toInt32 offset = offset ↔ offset < 2147483648 := by
  rw [toInt32]
  split <;> omega

theorem buildPosition_eq (config : BtreeConfig) (n : Nat) :
    buildPosition config n = config.headerSize + n * config.schemaSize := by
  induction n with
  | zero => simp [buildPosition]
  | succ n ih => rw [buildPosition, ih, Nat.succ_mul, Nat.add_assoc]

theorem stride_le {stride first second : Nat} (before : first < second) :
    stride * first + stride ≤ stride * second := by
  have step := Nat.mul_le_mul_left stride (Nat.succ_le_of_lt before)
  rwa [Nat.mul_succ] at step

theorem apart_of_stride {stride length first second : Nat} (fits : length ≤ stride)
    (different : first ≠ second) :
    (Region.mk (stride * first : Nat) length).Apart (Region.mk (stride * second : Nat) length) := by
  rw [Region.Apart]
  rcases Nat.lt_or_gt_of_ne different with before | after
  · have step := @stride_le stride first second before
    exact Or.inl (by dsimp only; omega)
  · have step := @stride_le stride second first after
    exact Or.inr (by dsimp only; omega)

theorem index_agrees_iff (config : BtreeConfig) (rrn : Rrn)
    (exact : toInt32 (indexOffset config rrn) = indexOffset config rrn) :
    loadBtreeNodeRegion rrn = writeIndexRecordRegion config rrn ↔
      config.schemaSize = 0 ∨ rrn.toNat = 0 := by
  rw [loadBtreeNodeRegion, writeIndexRecordRegion, exact, indexOffset, Region.mk.injEq, Nat.add_mul,
    ← Nat.mul_eq_zero]
  simp only [Int.natCast_add, Int.natCast_mul, and_true]
  omega

theorem data_agrees_iff (config : BtreeConfig) (rrn : Rrn)
    (exact : toInt32 (dataOffset config rrn) = dataOffset config rrn) :
    (∀ region ∈ dataRegions config rrn, region = writeDataRecordRegion config rrn) ↔
      config.schemaSize = 16 ∧ config.headerSize = 16 * rrn.toNat := by
  have rebuild : buildTreeRegion config rrn = writeDataRecordRegion config rrn ↔
      config.schemaSize = 16 ∧ config.headerSize = 16 * rrn.toNat := by
    rw [buildTreeRegion, writeDataRecordRegion, exact, buildPosition_eq, dataOffset,
      Region.mk.injEq, sizeofDataRecord, and_comm]
    refine and_congr_right fun size => ?_
    rw [size]
    omega
  have others : loadDataRecordRegion config rrn = writeDataRecordRegion config rrn ∧
      tombstoneRegion config rrn = writeDataRecordRegion config rrn := by
    simp only [loadDataRecordRegion, tombstoneRegion, writeDataRecordRegion, exact, and_self]
  simp only [dataRegions, List.mem_cons, List.not_mem_nil, or_false, forall_eq_or_imp, forall_eq,
    rebuild, others, and_true]

/-- The functions agree only on the first slot, for records of 16 bytes without a header. -/
theorem layout_agrees_iff (config : BtreeConfig) (rrn : Rrn) :
    LayoutAgrees config rrn ↔
      config.schemaSize = 16 ∧ config.headerSize = 0 ∧ rrn = 0 := by
  constructor
  · intro agrees
    obtain ⟨size, header⟩ := (data_agrees_iff config rrn agrees.dataInt).mp agrees.data
    have slot := (index_agrees_iff config rrn agrees.indexInt).mp agrees.index
    have zero : rrn.toNat = 0 := by omega
    exact ⟨size, by omega, UInt16.toNat_inj.mp zero⟩
  · rintro ⟨size, header, rfl⟩
    have index (other : Rrn) : indexRegions config other =
        [⟨32 * other.toNat, 32⟩, ⟨48 * other.toNat, 32⟩] := by
      have bound := other.toNat_lt
      have exact := (toInt32_eq_iff (48 * other.toNat)).mpr (by omega)
      simp [indexRegions, loadBtreeNodeRegion, writeIndexRecordRegion, indexOffset, sizeofBtreeNode,
        size, exact]
    have data (other : Rrn) : dataRegions config other =
        [⟨16 * other.toNat, 16⟩, ⟨32 * other.toNat, 16⟩, ⟨32 * other.toNat, 16⟩,
          ⟨32 * other.toNat, 16⟩] := by
      have bound := other.toNat_lt
      have exact := (toInt32_eq_iff (32 * other.toNat)).mpr (by omega)
      simp [dataRegions, buildTreeRegion, loadDataRecordRegion, writeDataRecordRegion,
        tombstoneRegion, dataOffset, sizeofDataRecord, buildPosition_eq, size, header, exact,
        Nat.mul_comm]
    have ahead (other : Rrn) (different : other ≠ 0) : 0 < other.toNat :=
      Nat.pos_of_ne_zero fun zero => different (UInt16.toNat_inj.mp zero)
    have indexExact := (toInt32_eq_iff (indexOffset config 0)).mpr (by simp [indexOffset])
    have dataExact := (toInt32_eq_iff (dataOffset config 0)).mpr (by simp [dataOffset])
    refine ⟨(index_agrees_iff config 0 indexExact).mpr (Or.inr rfl),
      (data_agrees_iff config 0 dataExact).mpr ⟨size, header⟩, ?_, ?_, indexExact, dataExact⟩
    · intro other different
      have positive := ahead other different
      simp [index, Region.Apart]
      omega
    · intro other different
      have positive := ahead other different
      simp [data, Region.Apart]
      omega

/-- With records of 64 bytes, node 1 is written at byte 96 and read at byte 32. -/
theorem layout_disagrees :
    ¬LayoutAgrees { schemaSize := 64, order := 3, rootRrn := 0, headerSize := 0 } 1 := by
  intro agrees
  exact absurd agrees.index (by decide)

end Gaveta
