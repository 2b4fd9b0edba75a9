import Gaveta.CString
import Gaveta.Library.BitMixing

/-! `murmur3_32` of `HashTable.c`, on platforms where a plain `char` is signed or not. -/

namespace Gaveta

def promoted (charSigned : Bool) (byte : Nat) : Int :=
  if charSigned && 128 ≤ byte then byte - 256 else byte

def murmur32Scramble (k : UInt32) : UInt32 :=
  let k := k * 0xcc9e2d51
  let k := k <<< 15 ||| k >>> 17
  k * 0x1b873593

def loadWord (key : List Nat) : UInt32 :=
  .ofNat (key.getD 0 0 + 256 * key.getD 1 0 + 65536 * key.getD 2 0 + 16777216 * key.getD 3 0)

def mixGroup (h k : UInt32) : UInt32 :=
  let h := h ^^^ murmur32Scramble k
  let h := h <<< 13 ||| h >>> 19
  h * 5 + 0xe6546b64

/-- The loop of `murmur3_32` over the groups of 4; `key` is `4 * i` bytes further in turn `i`. -/
def hashGroups (key : List Nat) (count : Nat) (h : UInt32) : UInt32 :=
  (List.range count).foldl (fun h i => mixGroup h (loadWord (key.drop (4 * i)))) h

def hashRest (charSigned : Bool) (key : List Nat) : Nat → UInt32 → UInt32
  | 0, k => k
  | i + 1, k =>
      hashRest charSigned key i (k <<< 8 ||| .ofInt (promoted charSigned (key.getD i 0)))

def finalize (h : UInt32) : UInt32 :=
  let h := h ^^^ h >>> 16
  let h := h * 0x85ebca6b
  let h := h ^^^ h >>> 13
  let h := h * 0xc2b2ae35
  h ^^^ h >>> 16

def murmur332 (charSigned : Bool) (key : CString) : UInt32 :=
  let len := key.bytes.length
  let h := hashGroups key.bytes (len / 4) 0x12345678
  let k := hashRest charSigned (key.bytes.drop (4 * (len / 4))) (len % 4) 0
  finalize (h ^^^ murmur32Scramble k ^^^ .ofNat len)

namespace Reference

/-! `MurmurHash3_x86_32` on a sequence of unsigned bytes. -/

def rotl32 (x : UInt32) (r : UInt32) : UInt32 := x <<< r ||| x >>> (32 - r)

def mixK1 (k1 : UInt32) : UInt32 := rotl32 (k1 * 0xcc9e2d51) 15 * 0x1b873593

def mixH1 (h1 k1 : UInt32) : UInt32 := rotl32 (h1 ^^^ mixK1 k1) 13 * 5 + 0xe6546b64

def fmix32 (h : UInt32) : UInt32 :=
  let h := (h ^^^ h >>> 16) * 0x85ebca6b
  let h := (h ^^^ h >>> 13) * 0xc2b2ae35
  h ^^^ h >>> 16

def tailWord (tail : List Nat) : UInt32 :=
  UInt32.ofNat (tail.getD 2 0) <<< 16 ^^^ UInt32.ofNat (tail.getD 1 0) <<< 8 ^^^
    UInt32.ofNat (tail.getD 0 0)

def blocks : List Nat → List UInt32
  | a :: b :: c :: d :: rest =>
      .ofNat (a + 256 * b + 65536 * c + 16777216 * d) :: blocks rest
  | _ => []

def tail : List Nat → List Nat
  | _ :: _ :: _ :: _ :: rest => tail rest
  | bytes => bytes

def murmurHash3 (seed : UInt32) (bytes : List Nat) : UInt32 :=
  let h1 := (blocks bytes).foldl mixH1 seed
  fmix32 (h1 ^^^ mixK1 (tailWord (tail bytes)) ^^^ .ofNat bytes.length)

/-- The published value of "Hello, world!". -/
example :
    murmurHash3 0 [72, 101, 108, 108, 111, 44, 32, 119, 111, 114, 108, 100, 33] = 0xc0363e43 := by
  decide

end Reference

open BitMixing

section Mixing

theorem scramble_eq (k : UInt32) : murmur32Scramble k = Reference.mixK1 k := rfl

theorem finalize_eq (h : UInt32) : finalize h = Reference.fmix32 h := rfl

theorem murmur32Scramble_injective : Function.Injective murmur32Scramble := by
  intro left right same
  have bits := congrArg UInt32.toBitVec same
  simp only [murmur32Scramble, UInt32.toBitVec_mul, UInt32.toBitVec_or, UInt32.toBitVec_shiftLeft,
    UInt32.toBitVec_shiftRight] at bits
  have unscaled := mul_injective 0x56ed309b#32 (by decide) bits
  have unrotated := rotate_injective 15 (by decide) unscaled
  exact UInt32.toBitVec_inj.mp (mul_injective 0xdee13bb1#32 (by decide) unrotated)

theorem finalize_injective : Function.Injective finalize := by
  intro left right same
  have bits := congrArg UInt32.toBitVec same
  simp only [finalize, UInt32.toBitVec_mul, UInt32.toBitVec_xor,
    UInt32.toBitVec_shiftRight] at bits
  have third := xorShift_injective 16 (by decide) bits
  have second := mul_injective 0x7ed1b41d#32 (by decide) third
  have unshifted := xorShift_injective 13 (by decide) second
  have first := mul_injective 0xa5cb9243#32 (by decide) unshifted
  exact UInt32.toBitVec_inj.mp (xorShift_injective 16 (by decide) first)

theorem xor_right_injective (h : UInt32) : Function.Injective fun k => h ^^^ k := by
  intro left right same
  exact UInt32.toBitVec_inj.mp (xor_injective h.toBitVec (congrArg UInt32.toBitVec same))

theorem finish_inj {h len left right : UInt32} :
    finalize (h ^^^ murmur32Scramble left ^^^ len) = finalize (h ^^^ murmur32Scramble right ^^^ len) ↔
      left = right := by
  constructor
  · intro same
    have mixed := finalize_injective same
    rw [UInt32.xor_comm _ len, UInt32.xor_comm _ len] at mixed
    exact murmur32Scramble_injective (xor_right_injective h (xor_right_injective len mixed))
  · rintro rfl
    rfl

end Mixing

section Groups

theorem length_div_four {a b c d : Nat} {rest : List Nat} :
    (a :: b :: c :: d :: rest).length / 4 = rest.length / 4 + 1 := by
  simp only [List.length_cons]
  omega

theorem length_div_short {bytes : List Nat}
    (short : ∀ a b c d rest, bytes = a :: b :: c :: d :: rest → False) : bytes.length / 4 = 0 := by
  match bytes, short with
  | [], _ | [_], _ | [_, _], _ | [_, _, _], _ =>
      simp only [List.length_cons, List.length_nil]
  | a :: b :: c :: d :: rest, short => exact absurd rfl (short a b c d rest)

theorem blocks_eq (bytes : List Nat) :
    Reference.blocks bytes =
      (List.range (bytes.length / 4)).map fun i => loadWord (bytes.drop (4 * i)) := by
  fun_induction Reference.blocks bytes with
  | case1 a b c d rest ih =>
      have word : loadWord (a :: b :: c :: d :: rest) =
          .ofNat (a + 256 * b + 65536 * c + 16777216 * d) := by
        simp only [loadWord, List.getD_cons_zero, List.getD_cons_succ]
      rw [length_div_four, List.range_succ_eq_map, List.map_cons, List.map_map, ih, Nat.mul_zero,
        List.drop_zero, word]
      rfl
  | case2 bytes short =>
      rw [length_div_short short]
      rfl

theorem tail_eq (bytes : List Nat) :
    Reference.tail bytes = bytes.drop (4 * (bytes.length / 4)) := by
  fun_induction Reference.tail bytes with
  | case1 a b c d rest ih =>
      rw [ih, length_div_four, Nat.mul_succ]
      rfl
  | case2 bytes short =>
      rw [length_div_short short]
      rfl

theorem hashGroups_eq (bytes : List Nat) (h : UInt32) :
    hashGroups bytes (bytes.length / 4) h = (Reference.blocks bytes).foldl Reference.mixH1 h := by
  rw [blocks_eq, List.foldl_map]
  rfl

end Groups

section Rest

variable {charSigned : Bool} {byte : Nat}

theorem promoted_plain (plain : charSigned = false ∨ byte < 128) :
    promoted charSigned byte = byte := by
  rw [promoted]
  rcases plain with rfl | small
  · rfl
  · simp [Nat.not_le_of_lt small]

theorem toNat_ofInt (value : Int) : ((UInt32.ofInt value).toNat : Int) = value % 4294967296 := by
  rw [UInt32.ofInt, UInt32.toNat_ofNat']
  omega

theorem word_plain (plain : charSigned = false ∨ byte < 128) :
    UInt32.ofInt (promoted charSigned byte) = .ofNat byte := by
  rw [promoted_plain plain]
  have value := toNat_ofInt byte
  apply UInt32.toNat_inj.mp
  rw [UInt32.toNat_ofNat']
  omega

theorem word_bit (inside : byte < 256) {i : Nat} (below : i < 32) :
    (UInt32.ofInt (promoted charSigned byte)).toBitVec.getLsbD i =
      if i < 8 then byte.testBit i else charSigned && decide (128 ≤ byte) := by
  have value : (UInt32.ofInt (promoted charSigned byte)).toNat =
      2 ^ 8 * (if charSigned && 128 ≤ byte then 2 ^ 24 - 1 else 0) + byte := by
    have modulo := toNat_ofInt (promoted charSigned byte)
    rw [promoted] at modulo ⊢
    split_ifs at modulo ⊢ with negative
    · omega
    · omega
  rw [← BitVec.testBit_toNat, UInt32.toNat_toBitVec, value, Nat.testBit_two_pow_mul_add _ inside]
  refine if_congr Iff.rfl rfl ?_
  split_ifs with negative
  · rw [Nat.testBit_two_pow_sub_one, negative, decide_eq_true_eq]
    omega
  · rw [Nat.zero_testBit]
    simpa using negative

theorem byte_bit (inside : byte < 256) {i : Nat} (below : i < 32) :
    (UInt32.ofNat byte).toBitVec.getLsbD i = (decide (i < 8) && byte.testBit i) := by
  have plain : UInt32.ofInt (promoted false byte) = UInt32.ofNat byte := word_plain (Or.inl rfl)
  rw [← plain, word_bit inside below]
  split_ifs with low
  · simp [low]
  · simp [low]

theorem shift_bit {word count : UInt32} {i : Nat} (below : i < 32) :
    (word <<< count).toBitVec.getLsbD i =
      (decide (count.toNat % 32 ≤ i) && word.toBitVec.getLsbD (i - count.toNat % 32)) := by
  have shift : (count.toBitVec % 32).toNat = count.toNat % 32 := BitVec.toNat_umod
  rw [UInt32.toBitVec_shiftLeft, BitVec.shiftLeft_eq', shift, BitVec.getLsbD_shiftLeft,
    decide_eq_true below, Bool.true_and]
  congr 1
  rw [← decide_not]
  exact decide_eq_decide.mpr Nat.not_lt

theorem turn_bit (k : UInt32) (inside : byte < 256) {i : Nat} (below : i < 32) :
    (k <<< 8 ||| .ofInt (promoted charSigned byte)).toBitVec.getLsbD i =
      if i < 8 then byte.testBit i
      else k.toBitVec.getLsbD (i - 8) || charSigned && decide (128 ≤ byte) := by
  have eight : (8 : UInt32).toNat % 32 = 8 := rfl
  rw [UInt32.toBitVec_or, BitVec.getLsbD_or, shift_bit below, word_bit inside below, eight]
  split_ifs with low
  · simp [Nat.not_le_of_lt low]
  · simp [Nat.le_of_not_lt low]

def anyNegative (charSigned : Bool) (key : List Nat) (count : Nat) : Bool :=
  (List.range count).any fun j => charSigned && decide (128 ≤ key.getD j 0)

theorem anyNegative_succ (charSigned : Bool) (key : List Nat) (count : Nat) :
    anyNegative charSigned key (count + 1) =
      (anyNegative charSigned key count || charSigned && decide (128 ≤ key.getD count 0)) := by
  simp [anyNegative, List.range_succ]

theorem hashRest_bit {key : List Nat} (bytes : ∀ j, key.getD j 0 < 256) (count : Nat) (k : UInt32)
    {i : Nat} (below : i < 32) :
    (hashRest charSigned key count k).toBitVec.getLsbD i =
      if i < 8 * count then
        (key.getD (i / 8) 0).testBit (i % 8) || anyNegative charSigned key (i / 8)
      else k.toBitVec.getLsbD (i - 8 * count) || anyNegative charSigned key count := by
  induction count generalizing k with
  | zero => simp [hashRest, anyNegative]
  | succ count ih =>
      rw [hashRest, ih]
      by_cases low : i < 8 * count
      · rw [if_pos low, if_pos (by omega)]
      · rw [if_neg low, turn_bit k (bytes count) (by omega)]
        by_cases here : i - 8 * count < 8
        · have byte : i / 8 = count := by omega
          have place : i - 8 * count = i % 8 := by omega
          rw [if_pos here, if_pos (by omega), byte, place]
        · have place : i - 8 * count - 8 = i - 8 * (count + 1) := by omega
          rw [if_neg here, if_neg (by omega), place, anyNegative_succ, Bool.or_assoc,
            Bool.or_comm (anyNegative ..)]

theorem placed_bit {count : UInt32} {slot part : Nat} (place : Nat)
    (amount : count.toNat % 32 = 8 * place)
    (inside : byte < 256) (small : part < 8) (below : 8 * slot + part < 32) :
    (UInt32.ofNat byte <<< count).toBitVec.getLsbD (8 * slot + part) =
      (decide (slot = place) && byte.testBit part) := by
  rw [shift_bit below, amount, byte_bit inside (by omega)]
  by_cases here : slot = place
  · subst here
    simp [small]
  · by_cases above : 8 * place ≤ 8 * slot + part
    · have high : ¬8 * slot + part - 8 * place < 8 := by omega
      simp [here, high]
    · simp [here, above]

theorem tailWord_bit {rest : List Nat} (short : rest.length < 4) (bytes : ∀ j, rest.getD j 0 < 256)
    {slot part : Nat} (small : part < 8) (below : 8 * slot + part < 32) :
    (Reference.tailWord rest).toBitVec.getLsbD (8 * slot + part) =
      (rest.getD slot 0).testBit part := by
  have zero : (0 : UInt32).toNat % 32 = 8 * 0 := rfl
  have first : (UInt32.ofNat (rest.getD 0 0)).toBitVec.getLsbD (8 * slot + part) =
      (decide (slot = 0) && (rest.getD 0 0).testBit part) := by
    rw [← placed_bit 0 zero (bytes 0) small below, UInt32.shiftLeft_zero]
  rw [Reference.tailWord, UInt32.toBitVec_xor, UInt32.toBitVec_xor, BitVec.getLsbD_xor,
    BitVec.getLsbD_xor, first, placed_bit 1 rfl (bytes 1) small below,
    placed_bit 2 rfl (bytes 2) small below]
  match slot with
  | 0 | 1 | 2 => simp
  | 3 => simp [List.getElem?_eq_none (Nat.le_of_lt_succ short)]
  | slot + 4 => omega

theorem hashRest_eq {rest : List Nat} (short : rest.length < 4) (bytes : ∀ byte ∈ rest, byte < 256) :
    hashRest charSigned rest rest.length 0 = Reference.tailWord rest ↔
      anyNegative charSigned rest rest.length = false := by
  have inside : ∀ j, rest.getD j 0 < 256 := by
    intro j
    by_cases below : j < rest.length
    · simpa [below] using bytes _ (List.getElem_mem below)
    · simp [List.getElem?_eq_none (Nat.le_of_not_lt below)]
  have zero : ∀ i, (0 : UInt32).toBitVec.getLsbD i = false := fun i => BitVec.getLsbD_zero
  constructor
  · intro same
    have top := congrArg (fun word : UInt32 => word.toBitVec.getLsbD 31) same
    have none : (Reference.tailWord rest).toBitVec.getLsbD 31 = false := by
      have bit := @tailWord_bit rest short inside 3 7 (by decide) (by decide)
      simpa [List.getElem?_eq_none (Nat.le_of_lt_succ short)] using bit
    have high : ¬31 < 8 * rest.length := by omega
    simpa only [none, hashRest_bit inside rest.length 0 (by decide : 31 < 32), if_neg high, zero,
      Bool.false_or] using top
  · intro none
    refine UInt32.toBitVec_inj.mp (BitVec.eq_of_getLsbD_eq fun i below => ?_)
    have split : 8 * (i / 8) + i % 8 = i := Nat.div_add_mod i 8
    have bit := @tailWord_bit rest short inside (i / 8) (i % 8) (by omega) (by omega)
    rw [split] at bit
    rw [bit, hashRest_bit inside rest.length 0 below, none, zero]
    split_ifs with low
    · have earlier : anyNegative charSigned rest (i / 8) = false := by
        rw [anyNegative, List.any_eq_false] at none ⊢
        intro j member
        exact none j (List.mem_range.mpr ((List.mem_range.mp member).trans (by omega)))
      rw [earlier, Bool.or_false]
    · rw [List.getD_eq_getElem?_getD, List.getElem?_eq_none (by omega)]
      simp

theorem anyNegative_eq_false {rest : List Nat} :
    anyNegative charSigned rest rest.length = false ↔
      charSigned = false ∨ ∀ byte ∈ rest, byte < 128 := by
  have listed : (∀ byte ∈ rest, byte < 128) ↔ ∀ j < rest.length, rest.getD j 0 < 128 := by
    rw [List.forall_mem_iff_getElem]
    exact forall₂_congr fun j inside => by simp [inside]
  rw [anyNegative, List.any_eq_false, listed]
  cases charSigned with
  | false => simp
  | true => simp only [List.mem_range, Bool.true_and, decide_eq_true_eq, Nat.not_le,
      Bool.true_eq_false, false_or]

end Rest

/-- `murmur3_32` is the reference unless a `char` behind the last whole group is negative. -/
theorem murmur_reference_iff (charSigned : Bool) (key : CString) :
    murmur332 charSigned key = Reference.murmurHash3 0x12345678 key.bytes ↔
      charSigned = false ∨
        ∀ byte ∈ key.bytes.drop (4 * (key.bytes.length / 4)), byte < 128 := by
  have length : (key.bytes.drop (4 * (key.bytes.length / 4))).length = key.bytes.length % 4 := by
    rw [List.length_drop]
    omega
  have bytes : ∀ byte ∈ key.bytes.drop (4 * (key.bytes.length / 4)), byte < 256 :=
    fun byte member => (key.nonNul byte (List.mem_of_mem_drop member)).2
  rw [murmur332, Reference.murmurHash3, ← finalize_eq, ← scramble_eq, ← hashGroups_eq, tail_eq]
  rw [finish_inj, ← length, hashRest_eq (by omega) bytes, anyNegative_eq_false]

theorem murmur_differs_at_128 :
    ¬∀ charSigned key, murmur332 charSigned key = Reference.murmurHash3 0x12345678 key.bytes := by
  intro same
  exact absurd (same true ⟨[128], by decide⟩) (by decide)

end Gaveta