import Gaveta.Structures.ListFiles

/-! The codec of strings, whose writer prints a number. -/

namespace Gaveta

open Decimal

structure StringElement (dataSize : Nat) where
  memory : Nat → UInt8
  string : List UInt8
  nonempty : string ≠ []
  plain : ∀ byte ∈ string, isSpace byte = false ∧ byte ≠ 0
  short : string.length < dataSize
  stored : ∀ i < string.length, string[i]? = some (memory i)
  ended : memory string.length = 0

/-- `write_string_node`: the text of the `int` that starts where the string does. -/
def writeStringNode (memory : Nat → UInt8) : List UInt8 :=
  ListFile.writeIntNode (numberAt ((List.range 4).map memory))

def scanWord (stream : Stream) : Stream × Option (List UInt8) :=
  let word := (skipSpace stream).span fun byte => !isSpace byte
  (word.2, if word.1.isEmpty then none else some word.1)

def readStringNode (stream : Stream) : Stream × Option (List UInt8) :=
  let scanned := scanWord stream
  match scanned.2 with
  | none => (scanned.1, none)
  | some word => (skipSpace scanned.1, some word)

def readStrings : Nat → Stream → List (Option (List UInt8))
  | 0, _ => []
  | count + 1, stream =>
      let read := readStringNode stream
      read.2 :: readStrings count read.1

def StringsReadBack {dataSize : Nat} (elements : List (StringElement dataSize)) : Prop :=
  readStrings elements.length
      (Stream.open_ (elements.flatMap fun element => writeStringNode element.memory)) =
    elements.map fun element => some element.string

/-- The numbers whose decimal text starts with their own four bytes. -/
def selfDescribing : List Nat := [809054264, 859387192, 942814265]

def writtenInt (memory : Nat → UInt8) : Int := (numberAt ((List.range 4).map memory)).toInt

theorem readStringNode_text {stream : Stream} {number : Int} {rest : List UInt8}
    (left : stream.rest = intBytes number ++ newline :: rest)
    (next : rest.dropWhile isSpace = rest) :
    (readStringNode stream).1.rest = rest ∧ (readStringNode stream).2 = some (intBytes number) := by
  have skipped : (skipSpace stream).rest = intBytes number ++ newline :: rest := by
    rw [skipSpace_rest, left, dropSpace_intBytes]
  have printed : ∀ byte ∈ intBytes number, (!isSpace byte) = true := fun byte member => by
    rw [isSpace_intBytes member]
    rfl
  have taken : (skipSpace stream).rest.takeWhile (fun byte => !isSpace byte) = intBytes number := by
    rw [skipped, List.takeWhile_append_of_pos printed, List.takeWhile_cons_of_neg (by decide),
      List.append_nil]
  have dropped : (skipSpace stream).rest.dropWhile (fun byte => !isSpace byte) =
      newline :: rest := by
    rw [skipped, List.dropWhile_append_of_pos printed, List.dropWhile_cons_of_neg (by decide)]
  have nonempty : (intBytes number).isEmpty = false := by simpa using intBytes_ne_nil number
  have word : (scanWord stream).2 = some (intBytes number) := by
    rw [scanWord, Stream.span, taken, nonempty]
    rfl
  have behind : (scanWord stream).1.rest = newline :: rest := dropped
  rw [readStringNode, word]
  refine ⟨?_, rfl⟩
  rw [skipSpace_rest, behind, List.dropWhile_cons_of_pos (by decide), next]

section Codec

variable {dataSize : Nat}

theorem dropSpace_strings (elements : List (StringElement dataSize)) :
    (elements.flatMap fun element => writeStringNode element.memory).dropWhile isSpace =
      elements.flatMap fun element => writeStringNode element.memory := by
  cases elements with
  | nil => rfl
  | cons element elements =>
      rw [List.flatMap_cons, writeStringNode, ListFile.writeIntNode, ListFile.writeNode,
        List.append_assoc]
      exact dropSpace_intBytes _ _

theorem readStrings_text {elements : List (StringElement dataSize)} {stream : Stream}
    (left : stream.rest = elements.flatMap fun element => writeStringNode element.memory) :
    readStrings elements.length stream =
      elements.map fun element => some (intBytes (writtenInt element.memory)) := by
  induction elements generalizing stream with
  | nil => rfl
  | cons element elements ih =>
      rw [List.flatMap_cons, writeStringNode, ListFile.writeIntNode, ListFile.writeNode,
        List.append_assoc] at left
      obtain ⟨rest, read⟩ := readStringNode_text left (dropSpace_strings elements)
      rw [List.length_cons, readStrings, List.map_cons, read, ih rest]
      rfl

theorem stringsReadBack_iff (elements : List (StringElement dataSize)) :
    StringsReadBack elements ↔
      ∀ element ∈ elements, intBytes (writtenInt element.memory) = element.string := by
  rw [StringsReadBack, readStrings_text rfl, List.map_inj_left]
  simp only [Option.some.injEq]

end Codec

section SelfDescribing

def lowestFirst (memory : Nat → UInt8) : Nat :=
  (memory 0).toNat + 256 * (memory 1).toNat + 65536 * (memory 2).toNat +
    16777216 * (memory 3).toNat

theorem writtenInt_eq (memory : Nat → UInt8) :
    writtenInt memory =
      if lowestFirst memory < 2147483648 then (lowestFirst memory : Int)
      else lowestFirst memory - 4294967296 := by
  have first := (memory 0).toNat_lt
  have second := (memory 1).toNat_lt
  have third := (memory 2).toNat_lt
  have fourth := (memory 3).toNat_lt
  have value : (numberAt ((List.range 4).map memory)).toNat = lowestFirst memory := by
    simp only [numberAt, lowestFirst, List.range_succ, List.range_zero, List.nil_append,
      List.cons_append, List.map_cons, List.map_nil, List.take_succ_cons, List.take_zero,
      List.foldr_cons, List.foldr_nil, BitVec.toNat_ofNat]
    omega
  rw [writtenInt, BitVec.toInt_eq_toNat_cond, value]
  split_ifs <;> simp only [lowestFirst] at * <;> omega

def numberOfFront (front : Nat) : Nat :=
  808464432 + front / 1000 + 256 * (front / 100 % 10) + 65536 * (front / 10 % 10) +
    16777216 * (front % 10)

theorem front_of_digits : ∀ high ∈ List.range' 10 90, ∀ low ∈ List.range 100,
    numberOfFront (100 * high + low) / 100000 = 100 * high + low →
      100 * high + low ∈ [8090, 8593, 9428] := by
  decide +kernel

theorem numberOfFront_self {front : Nat} (lower : 1000 ≤ front) (upper : front < 10000)
    (same : numberOfFront front / 100000 = front) : numberOfFront front ∈ selfDescribing := by
  have parts : 100 * (front / 100) + front % 100 = front := Nat.div_add_mod ..
  have found := front_of_digits (front / 100) (List.mem_range'_1.mpr (by omega)) (front % 100)
    (List.mem_range.mpr (Nat.mod_lt _ (by decide)))
  rw [parts] at found
  have listed := found same
  simp only [List.mem_cons, List.not_mem_nil, or_false] at listed
  rcases listed with rfl | rfl | rfl <;> decide

variable {dataSize : Nat} {element : StringElement dataSize}

theorem StringElement.printed (same : intBytes (writtenInt element.memory) = element.string)
    {i : Nat} (inside : i < element.string.length) :
    45 ≤ (element.memory i).toNat ∧ (element.memory i).toNat ≤ 57 := by
  have member := List.mem_of_getElem? (element.stored i inside)
  rw [← same] at member
  exact mem_intBytes member

theorem StringElement.near_zero (same : intBytes (writtenInt element.memory) = element.string) :
    lowestFirst element.memory < 10 ^ element.string.length ∨
      4294967296 < lowestFirst element.memory + 10 ^ element.string.length := by
  have positive : 0 < element.string.length := List.length_pos_iff.mpr element.nonempty
  have magnitude : (writtenInt element.memory).natAbs < 10 ^ element.string.length := by
    rw [← length_toBytes_le_iff positive, ← same, intBytes, List.length_append]
    exact Nat.le_add_left _ _
  rw [writtenInt_eq] at magnitude
  split_ifs at magnitude <;> omega

theorem StringElement.four_le (same : intBytes (writtenInt element.memory) = element.string) :
    4 ≤ element.string.length := by
  by_contra short
  have positive : 0 < element.string.length := List.length_pos_iff.mpr element.nonempty
  have near := element.near_zero same
  have last := element.printed same (Nat.sub_lt positive Nat.one_pos)
  have first := (element.memory 0).toNat_lt
  have second := (element.memory 1).toNat_lt
  have third := (element.memory 2).toNat_lt
  have fourth := (element.memory 3).toNat_lt
  simp only [lowestFirst] at near
  obtain length | length | length : element.string.length = 1 ∨ element.string.length = 2 ∨
      element.string.length = 3 := by omega
  · simp only [length, Nat.sub_self] at last near
    omega
  · simp only [length, Nat.reduceSub] at last near
    omega
  · simp only [length, Nat.reduceSub] at last near
    omega

theorem StringElement.digits (same : intBytes (writtenInt element.memory) = element.string) :
    toBytes (lowestFirst element.memory) = element.string := by
  have long := element.four_le same
  have fourth := element.printed same (i := 3) (by omega)
  have first := (element.memory 0).toNat_lt
  have second := (element.memory 1).toNat_lt
  have third := (element.memory 2).toNat_lt
  have small : lowestFirst element.memory < 2147483648 := by
    rw [lowestFirst]
    omega
  rw [writtenInt_eq, if_pos small, intBytes, if_neg (by omega), List.nil_append,
    Int.natAbs_natCast] at same
  exact same

theorem StringElement.self_of_written
    (same : intBytes (writtenInt element.memory) = element.string) :
    element.string ∈ selfDescribing.map toBytes := by
  have long := element.four_le same
  have digits := element.digits same
  have range : ∀ i < 4, 48 ≤ (element.memory i).toNat ∧ (element.memory i).toNat ≤ 57 := by
    intro i inside
    have member := List.mem_of_getElem? (element.stored i (by omega))
    rw [← digits] at member
    exact ⟨digit_lower (isDigit_of_mem member), (element.printed same (by omega)).2⟩
  have first := range 0 (by decide)
  have second := range 1 (by decide)
  have third := range 2 (by decide)
  have fourth := range 3 (by decide)
  have number : lowestFirst element.memory = (element.memory 0).toNat +
      256 * (element.memory 1).toNat + 65536 * (element.memory 2).toNat +
        16777216 * (element.memory 3).toNat := rfl
  generalize lowestFirst element.memory = value at number digits
  have lower : 100000000 ≤ value := by omega
  have upper : value < 1000000000 := by omega
  obtain ⟨last, _, split⟩ := @toBytes_div value 5 (by omega)
  rw [digits, @toBytes_four (value / 10 ^ 5) (by omega) (by omega)] at split
  have byte : ∀ i < 4, element.string[i]? = some (element.memory i) := fun i inside =>
    element.stored i (by omega)
  rw [split] at byte
  have whole : ∀ digit < 10, (UInt8.ofNat (48 + digit)).toNat = 48 + digit := by decide
  have firstDigit := Option.some.inj (byte 0 (by decide))
  have secondDigit := Option.some.inj (byte 1 (by decide))
  have thirdDigit := Option.some.inj (byte 2 (by decide))
  have fourthDigit := Option.some.inj (byte 3 (by decide))
  rw [← firstDigit, ← secondDigit, ← thirdDigit, ← fourthDigit, whole _ (by omega),
    whole _ (by omega), whole _ (by omega), whole _ (by omega)] at number
  have front : value = numberOfFront (value / 10 ^ 5) := by
    rw [numberOfFront]
    omega
  rw [← digits]
  refine List.mem_map_of_mem ?_
  rw [front]
  exact numberOfFront_self (by omega) (by omega) (congrArg (· / 10 ^ 5) front.symm)

theorem StringElement.written_of_self (self : element.string ∈ selfDescribing.map toBytes) :
    intBytes (writtenInt element.memory) = element.string := by
  obtain ⟨number, listed, digits⟩ := List.mem_map.mp self
  have describes : ∀ number ∈ selfDescribing, number < 2147483648 ∧ 4 ≤ (toBytes number).length ∧
      lowestFirst (fun i => ((toBytes number)[i]?).getD 0) = number := by decide
  obtain ⟨small, long, value⟩ := describes number listed
  have byte : ∀ i < 4, ((toBytes number)[i]?).getD 0 = element.memory i := by
    intro i inside
    rw [digits] at long ⊢
    rw [element.stored i (by omega), Option.getD_some]
  rw [lowestFirst, byte 0 (by decide), byte 1 (by decide), byte 2 (by decide), byte 3 (by decide),
    ← lowestFirst] at value
  rw [writtenInt_eq, value, if_pos small, intBytes, if_neg (by omega), List.nil_append,
    Int.natAbs_natCast, digits]

end SelfDescribing

/-- Strings come back from a file exactly when each of them is the text of the `int` in its own
first bytes. -/
theorem string_codec_iff {dataSize : Nat} (elements : List (StringElement dataSize)) :
    StringsReadBack elements ↔
      ∀ element ∈ elements, element.string ∈ selfDescribing.map toBytes := by
  rw [stringsReadBack_iff]
  exact ⟨fun same element member => element.self_of_written (same element member),
    fun self element member => element.written_of_self (self element member)⟩

def letterA : StringElement 2 where
  memory := fun i => if i = 0 then 97 else 0
  string := [97]
  nonempty := by decide
  plain := by decide
  short := by decide
  stored := by decide
  ended := by decide

theorem string_comes_back_as_number : ¬StringsReadBack [letterA] := by
  rw [stringsReadBack_iff]
  decide

end Gaveta
