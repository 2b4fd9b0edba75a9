import Gaveta.Config.Scanner
import Gaveta.Library.Decimal

/-! Linked lists of numbers that are written to a file and read back. -/

namespace Gaveta

open Decimal

abbrev Number := BitVec 32

def numberBytes (data : Number) (i : Nat) : UInt8 := UInt8.ofNat (data.toNat / 256 ^ i)

def numberAt (content : List UInt8) : Number :=
  BitVec.ofNat 32 ((content.take 4).foldr (fun byte value => byte.toNat + 256 * value) 0)

theorem numberAt_numberBytes (data : Number) :
    numberAt ((List.range 4).map (numberBytes data)) = data := by
  have small : data.toNat < 4294967296 := data.isLt
  have whole : ∀ value : Nat, (UInt8.ofNat value).toNat = value % 256 := fun value =>
    UInt8.toNat_ofNat'
  apply BitVec.eq_of_toNat_eq
  simp only [numberAt, numberBytes, List.range_succ, List.range_zero, List.nil_append,
    List.cons_append, List.map_cons, List.map_nil, List.take_succ_cons, List.take_zero,
    List.foldr_cons, List.foldr_nil, whole, BitVec.toNat_ofNat]
  omega

inductive NumberFormat where
  | int
  | u32
deriving DecidableEq

namespace NumberFormat

def value (number : Number) : NumberFormat → Int
  | int => number.toInt
  | u32 => number.toNat

def InRange (read : Int) : NumberFormat → Prop
  | int => -2147483648 ≤ read ∧ read < 2147483648
  | u32 => -4294967296 < read ∧ read < 4294967296

instance (format : NumberFormat) (read : Int) : Decidable (format.InRange read) := by
  cases format
  · exact inferInstanceAs (Decidable (_ ∧ _))
  · exact inferInstanceAs (Decidable (_ ∧ _))

end NumberFormat

def newline : UInt8 := 10

def scanSign (stream : Stream) : Stream × Bool :=
  match stream.rest.head? with
  | none => (stream, false)
  | some byte =>
      if byte = minus then (stream.skip, true)
      else if byte = plus then (stream.skip, false)
      else (stream, false)

/-- The conversion of `"%d\n"` or `"%u\n"`: nothing where it fails. -/
def scanNumber (stream : Stream) : Stream × Option Int :=
  let sign := scanSign (skipSpace stream)
  let digits := sign.1.span isDigit
  (digits.2,
    if digits.1.isEmpty then none
    else some (if sign.2 then -(ofBytes digits.1 : Int) else ofBytes digits.1))

namespace ListFile

/-- `write_int_node` and `write_u32_node`, by their conversions. -/
def writeNode (format : NumberFormat) (data : Number) : List UInt8 :=
  intBytes (format.value data) ++ [newline]

def writeIntNode : Number → List UInt8 := writeNode .int

/-- `read_int_node` and `read_u32_node`: `stale` is in the block before, and `beyond` is what a number
outside the range leaves. -/
def readNode (format : NumberFormat) (stale : Number) (beyond : Int → Number) (stream : Stream) :
    Stream × Number :=
  let scanned := scanNumber stream
  match scanned.2 with
  | none => (scanned.1, stale)
  | some read =>
      -- the rest of the format string skips the white space behind the number
      (skipSpace scanned.1, if format.InRange read then BitVec.ofInt 32 read else beyond read)

def readIntNode : Number → (Int → Number) → Stream → Stream × Number := readNode .int

def insertLl (ll : List Number) (data : Number) : List Number := data :: ll

/-- `export_ll_to_disk`: the file at the path, and the result; `opens` is whether it can be
written. -/
def exportLlToDisk (ll : List Number) (file : Option (List UInt8)) (opens : Bool)
    (fn : Number → List UInt8) : Option (List UInt8) × Bool :=
  if ll.isEmpty then (file, false)
  else if opens then (some (ll.flatMap fn), true)
  else (file, false)

def readLoop (fn : Nat → Stream → Stream × Number) :
    Nat → Nat → Stream → List Number → Option (List Number)
  | 0, _, _, _ => none
  | fuel + 1, turn, stream, ll =>
      if stream.eof then some ll
      else
        let read := fn turn stream
        readLoop fn fuel (turn + 1) read.1 (insertLl ll read.2)

/-- `read_ll_from_disk`: nothing if `fuel` turns are not enough. -/
def readLlFromDisk (ll : List Number) (file : Option (List UInt8))
    (fn : Nat → Stream → Stream × Number) (fuel : Nat) : Option (List Number × Bool) :=
  match file with
  | none => some (ll, false)
  | some content => (readLoop fn fuel 0 (Stream.open_ content) ll).map fun ll => (ll, true)

def RoundTrips (format : NumberFormat) (ll : List Number) (file : Option (List UInt8))
    (stale : Nat → Number) (beyond : Int → Number) : Prop :=
  ∃ fuel ok, readLlFromDisk [] (exportLlToDisk ll file true (writeNode format)).1
    (fun turn => readNode format (stale turn) beyond) fuel = some (ll, ok)

end ListFile

namespace NumberFormat

variable {format : NumberFormat}

theorem inRange_value (format : NumberFormat) (data : Number) :
    format.InRange (format.value data) := by
  cases format with
  | int =>
      have lower := data.le_toInt
      have upper := data.toInt_lt
      simp only [InRange, value]
      exact ⟨by simpa using lower, by simpa using upper⟩
  | u32 =>
      have upper := data.isLt
      simp only [InRange, value]
      omega

theorem ofInt_value (format : NumberFormat) (data : Number) :
    BitVec.ofInt 32 (format.value data) = data := by
  cases format with
  | int => exact BitVec.ofInt_toInt
  | u32 => rw [value, BitVec.ofInt_natCast, BitVec.ofNat_toNat, BitVec.setWidth_eq]

end NumberFormat

theorem digit_lower {byte : UInt8} (digit : isDigit byte = true) : 48 ≤ byte.toNat := by
  simp only [isDigit, Bool.and_eq_true, decide_eq_true_eq, UInt8.le_iff_toNat_le] at digit
  exact digit.1

theorem sign_not_digit {byte : UInt8} (digit : isDigit byte = true) :
    byte ≠ minus ∧ byte ≠ plus := by
  have lower := digit_lower digit
  constructor
  · rintro rfl
    exact absurd lower (by decide)
  · rintro rfl
    exact absurd lower (by decide)

theorem isSpace_intBytes {number : Int} {byte : UInt8} (member : byte ∈ intBytes number) :
    isSpace byte = false := by
  have printable := mem_intBytes member
  by_contra space
  simp only [isSpace, Bool.not_eq_false, Bool.or_eq_true, decide_eq_true_eq, Bool.and_eq_true,
    UInt8.le_iff_toNat_le] at space
  rcases space with rfl | ⟨_, upper⟩
  · exact absurd printable.1 (by decide)
  · exact absurd (printable.1.trans upper) (by decide)

theorem intBytes_ne_nil (number : Int) : intBytes number ≠ [] := by
  rw [intBytes, ne_eq, List.append_eq_nil_iff]
  exact fun both => toBytes_ne_nil _ both.2

theorem dropSpace_intBytes (number : Int) (rest : List UInt8) :
    (intBytes number ++ rest).dropWhile isSpace = intBytes number ++ rest := by
  obtain ⟨first, digits, split⟩ := List.exists_cons_of_ne_nil (intBytes_ne_nil number)
  have visible : isSpace first = false := isSpace_intBytes (split ▸ List.mem_cons_self)
  rw [split]
  exact List.dropWhile_cons_of_neg (by simp [visible])

theorem scanSign_intBytes {stream : Stream} {number : Int} {rest : List UInt8}
    (left : stream.rest = intBytes number ++ rest) :
    (scanSign stream).1.rest = toBytes number.natAbs ++ rest ∧
      (scanSign stream).2 = decide (number < 0) := by
  rw [intBytes] at left
  rw [scanSign, left]
  split_ifs at left ⊢ with negative
  · simp [minus, left, negative]
  · obtain ⟨first, digits, split⟩ := List.exists_cons_of_ne_nil (toBytes_ne_nil number.natAbs)
    have sign := sign_not_digit (isDigit_of_mem (split ▸ List.mem_cons_self) : isDigit first = true)
    simp [split, sign.1, sign.2, left, negative]

theorem scanNumber_intBytes {stream : Stream} {number : Int} {next : UInt8} {rest : List UInt8}
    (left : stream.rest = intBytes number ++ next :: rest) (ends : isDigit next = false) :
    (scanNumber stream).1.rest = next :: rest ∧ (scanNumber stream).2 = some number := by
  have skipped : (skipSpace stream).rest = intBytes number ++ next :: rest := by
    rw [skipSpace_rest, left, dropSpace_intBytes]
  obtain ⟨atDigits, sign⟩ := scanSign_intBytes skipped
  have digits : ∀ byte ∈ toBytes number.natAbs, isDigit byte = true := fun _ => isDigit_of_mem
  have taken : (scanSign (skipSpace stream)).1.rest.takeWhile isDigit = toBytes number.natAbs := by
    rw [atDigits, List.takeWhile_append_of_pos digits, List.takeWhile_cons_of_neg (by simp [ends]),
      List.append_nil]
  have dropped : (scanSign (skipSpace stream)).1.rest.dropWhile isDigit = next :: rest := by
    rw [atDigits, List.dropWhile_append_of_pos digits, List.dropWhile_cons_of_neg (by simp [ends])]
  refine ⟨dropped, ?_⟩
  have nonempty : (toBytes number.natAbs).isEmpty = false := by
    simpa using toBytes_ne_nil number.natAbs
  rw [scanNumber, Stream.span, taken, sign]
  simp only [nonempty, Bool.false_eq_true, ↓reduceIte, ofBytes_toBytes, decide_eq_true_eq,
    Option.some.injEq]
  split_ifs with negative <;> omega

namespace ListFile

variable {format : NumberFormat} {ll : List Number}

theorem dropSpace_text (format : NumberFormat) (ll : List Number) :
    (ll.flatMap (writeNode format)).dropWhile isSpace = ll.flatMap (writeNode format) := by
  cases ll with
  | nil => rfl
  | cons data ll =>
      rw [List.flatMap_cons, writeNode, List.append_assoc]
      exact dropSpace_intBytes _ _

theorem readNode_text {data : Number} {stale : Number} {beyond : Int → Number} {stream : Stream}
    (left : stream.rest = (data :: ll).flatMap (writeNode format)) :
    (readNode format stale beyond stream).1.rest = ll.flatMap (writeNode format) ∧
      (readNode format stale beyond stream).1.eof = ll.isEmpty ∧
      (readNode format stale beyond stream).2 = data := by
  rw [List.flatMap_cons, writeNode, List.append_assoc] at left
  obtain ⟨atNewline, read⟩ := scanNumber_intBytes left (by decide)
  have skipped : (skipSpace (scanNumber stream).1).rest = ll.flatMap (writeNode format) := by
    rw [skipSpace_rest, atNewline]
    exact (List.dropWhile_cons_of_pos (by decide)).trans (dropSpace_text format ll)
  simp only [readNode, read, if_pos (format.inRange_value data), format.ofInt_value]
  refine ⟨skipped, ?_, trivial⟩
  rw [skipSpace_eof, ← skipSpace_rest, skipped]
  cases ll with
  | nil => rfl
  | cons next ll => simp [writeNode]

theorem readLoop_text {stale : Nat → Number} {beyond : Int → Number} {fuel turn : Nat}
    {stream : Stream} {acc : List Number} (left : stream.rest = ll.flatMap (writeNode format))
    (flag : stream.eof = ll.isEmpty) :
    readLoop (fun turn => readNode format (stale turn) beyond) fuel turn stream acc =
      if ll.length < fuel then some (ll.reverse ++ acc) else none := by
  induction ll generalizing fuel turn stream acc with
  | nil =>
      cases fuel with
      | zero => rfl
      | succ fuel =>
          rw [readLoop, flag]
          rfl
  | cons data ll ih =>
      cases fuel with
      | zero => rfl
      | succ fuel =>
          obtain ⟨rest, eof, value⟩ := readNode_text left
          rw [readLoop, flag]
          simp only [List.isEmpty_cons, Bool.false_eq_true, ↓reduceIte]
          rw [ih rest eof, value, insertLl]
          simp only [List.length_cons, List.reverse_cons, List.append_assoc, List.singleton_append,
            Nat.add_lt_add_iff_right]

theorem readLoop_longer {fn : Nat → Stream → Stream × Number} {fuel turn : Nat} {stream : Stream}
    {acc result : List Number} (ends : readLoop fn fuel turn stream acc = some result) :
    acc.length ≤ result.length := by
  induction fuel generalizing turn stream acc with
  | zero => cases ends
  | succ fuel ih =>
      rw [readLoop] at ends
      split_ifs at ends with flag
      · rw [Option.some.inj ends]
      · have longer := ih ends
        rw [insertLl, List.length_cons] at longer
        omega

/-- The flag is clear before the first read, so a file that exists gives at least one number. -/
theorem readLlFromDisk_some {fn : Nat → Stream → Stream × Number} {content : List UInt8}
    {fuel : Nat} {result : List Number} {ok : Bool}
    (ends : readLlFromDisk [] (some content) fn fuel = some (result, ok)) : result ≠ [] := by
  obtain ⟨list, loop, same⟩ := Option.map_eq_some_iff.mp ends
  obtain ⟨rfl, rfl⟩ := Prod.mk.inj same
  cases fuel with
  | zero => cases loop
  | succ fuel =>
      have clear : (Stream.open_ content).eof = false := rfl
      rw [readLoop, clear, if_neg Bool.false_ne_true] at loop
      have longer := readLoop_longer loop
      rintro rfl
      cases longer

theorem roundTrips_cons {file : Option (List UInt8)} {stale : Nat → Number} {beyond : Int → Number}
    (some_ : ll ≠ []) : RoundTrips format ll file stale beyond ↔ ll.reverse = ll := by
  have nonempty : ll.isEmpty = false := by simpa using some_
  have written : (exportLlToDisk ll file true (writeNode format)).1 =
      some (ll.flatMap (writeNode format)) := by
    simp only [exportLlToDisk, nonempty, Bool.false_eq_true, ↓reduceIte]
  have loop : ∀ fuel, readLlFromDisk [] (some (ll.flatMap (writeNode format)))
      (fun turn => readNode format (stale turn) beyond) fuel =
        if ll.length < fuel then some (ll.reverse, true) else none := by
    intro fuel
    rw [readLlFromDisk, readLoop_text rfl nonempty.symm, List.append_nil]
    split_ifs <;> rfl
  rw [RoundTrips, written]
  constructor
  · rintro ⟨fuel, ok, result⟩
    rw [loop] at result
    split_ifs at result with enough
    exact congrArg Prod.fst (Option.some.inj result)
  · intro palindrome
    refine ⟨ll.length + 1, true, ?_⟩
    rw [loop, if_pos (Nat.lt_succ_self _), palindrome]

theorem roundTrips_nil {file : Option (List UInt8)} {stale : Nat → Number}
    {beyond : Int → Number} : RoundTrips format [] file stale beyond ↔ file = none := by
  constructor
  · rintro ⟨fuel, ok, result⟩
    cases file with
    | none => rfl
    | some content => exact absurd rfl (readLlFromDisk_some result)
  · rintro rfl
    exact ⟨0, false, rfl⟩

end ListFile

/-- The lists that survive an export and an import are the palindromes, and the empty one if there
was no file. -/
theorem list_round_trip_iff (format : NumberFormat) (ll : List Number) (file : Option (List UInt8))
    (stale : Nat → Number) (beyond : Int → Number) :
    ListFile.RoundTrips format ll file stale beyond ↔
      ll ≠ [] ∧ ll.reverse = ll ∨ ll = [] ∧ file = none := by
  by_cases empty : ll = []
  · subst empty
    rw [ListFile.roundTrips_nil]
    simp
  · rw [ListFile.roundTrips_cons empty]
    simp [empty]

theorem exported_list_reversed :
    ¬∀ format ll file stale beyond, ListFile.RoundTrips format ll file stale beyond := by
  intro survives
  have same := (ListFile.roundTrips_cons (by decide)).mp
    (survives .int [1, 2] none (fun _ => 0) fun _ => 0)
  exact absurd same (by decide)

end Gaveta
