import Mathlib.Data.List.TakeWhile
import Mathlib.Algebra.GroupWithZero.Nat
import Mathlib.Tactic.Common

/-! Decimal numbers as bytes. -/

namespace Decimal

def minus : UInt8 := 45

def plus : UInt8 := 43

def isDigit (byte : UInt8) : Bool := 48 ≤ byte && byte ≤ 57

def toBytes (number : Nat) : List UInt8 :=
  (Nat.toDigits 10 number).map fun digit => digit.toNat.toUInt8

def ofBytes (digits : List UInt8) : Nat :=
  Nat.ofDigitChars 10 (digits.map fun byte => Char.ofNat byte.toNat) 0

def intBytes (number : Int) : List UInt8 :=
  (if number < 0 then [minus] else []) ++ toBytes number.natAbs

theorem toBytes_ne_nil (number : Nat) : toBytes number ≠ [] := by
  rw [toBytes, ne_eq, List.map_eq_nil_iff]
  exact Nat.toDigits_ne_nil

theorem digit_small {digit : Char} (isDigit : digit.isDigit = true) :
    48 ≤ digit.toNat ∧ digit.toNat ≤ 57 := by
  simp only [Char.isDigit, Bool.and_eq_true, decide_eq_true_eq] at isDigit
  exact ⟨isDigit.1, isDigit.2⟩

theorem digit_of_mem {number : Nat} {digit : Char} (member : digit ∈ Nat.toDigits 10 number) :
    48 ≤ digit.toNat ∧ digit.toNat ≤ 57 :=
  digit_small (Nat.isDigit_of_mem_toDigits (by decide) (by decide) member)

theorem toNat_digit {digit : Char} (small : digit.toNat ≤ 57) :
    digit.toNat.toUInt8.toNat = digit.toNat := by
  rw [Nat.toUInt8, UInt8.toNat_ofNat']
  omega

theorem isDigit_of_mem {number : Nat} {byte : UInt8} (member : byte ∈ toBytes number) :
    isDigit byte = true := by
  obtain ⟨digit, inside, rfl⟩ := List.mem_map.mp member
  have small := digit_of_mem inside
  have value := toNat_digit small.2
  simp only [isDigit, Bool.and_eq_true, decide_eq_true_eq, UInt8.le_iff_toNat_le, value]
  exact small

theorem ofBytes_toBytes (number : Nat) : ofBytes (toBytes number) = number := by
  have chars : (toBytes number).map (fun byte => Char.ofNat byte.toNat) = Nat.toDigits 10 number := by
    rw [toBytes, List.map_map]
    refine (List.map_congr_left fun digit inside => ?_).trans (List.map_id _)
    have value := toNat_digit (digit_of_mem inside).2
    rw [Function.comp_apply, value, Char.ofNat_toNat]
    rfl
  rw [ofBytes, chars]
  exact Nat.ofDigitChars_ten_toDigits

theorem length_toBytes_le_iff {number count : Nat} (positive : 0 < count) :
    (toBytes number).length ≤ count ↔ number < 10 ^ count := by
  rw [toBytes, List.length_map]
  exact Nat.length_toDigits_le_iff (by decide) positive

theorem toBytes_mul_add {high low : Nat} (positive : 0 < high) (small : low < 10) :
    toBytes (10 * high + low) = toBytes high ++ toBytes low := by
  have digits := Nat.toDigits_append_toDigits (by decide : 1 < 10) positive small
  rw [toBytes, ← digits, List.map_append]
  rfl

theorem toBytes_digit : ∀ digit < 10, toBytes digit = [UInt8.ofNat (48 + digit)] := by
  decide

theorem toBytes_four {number : Nat} (lower : 1000 ≤ number) (upper : number < 10000) :
    toBytes number =
      [UInt8.ofNat (48 + number / 1000), UInt8.ofNat (48 + number / 100 % 10),
        UInt8.ofNat (48 + number / 10 % 10), UInt8.ofNat (48 + number % 10)] := by
  have digit : ∀ value, toBytes (value % 10) = [UInt8.ofNat (48 + value % 10)] :=
    fun value => toBytes_digit _ (Nat.mod_lt _ (by decide))
  have split : ∀ value, 10 ≤ value →
      toBytes value = toBytes (value / 10) ++ toBytes (value % 10) := by
    intro value large
    rw [← toBytes_mul_add (by omega) (Nat.mod_lt _ (by decide)), Nat.div_add_mod]
  have hundreds : number / 10 / 10 = number / 100 := Nat.div_div_eq_div_mul ..
  have thousands : number / 100 / 10 = number / 1000 := Nat.div_div_eq_div_mul ..
  rw [split number (by omega), split (number / 10) (by omega), hundreds,
    split (number / 100) (by omega), thousands, toBytes_digit (number / 1000) (by omega), digit,
    digit, digit]
  rfl

theorem toBytes_div {number count : Nat} (positive : 0 < number / 10 ^ count) :
    ∃ last, last.length = count ∧ toBytes number = toBytes (number / 10 ^ count) ++ last := by
  induction count generalizing number with
  | zero => exact ⟨[], rfl, by rw [Nat.pow_zero, Nat.div_one, List.append_nil]⟩
  | succ count ih =>
      rw [Nat.pow_succ', ← Nat.div_div_eq_div_mul] at positive ⊢
      obtain ⟨last, length, digits⟩ := ih positive
      have high : 0 < number / 10 := Nat.pos_of_ne_zero fun zero => by simp [zero] at positive
      have small : number % 10 < 10 := Nat.mod_lt _ (by decide)
      have one : (toBytes (number % 10)).length = 1 := by
        rw [toBytes, Nat.toDigits_of_lt_base small]
        rfl
      refine ⟨last ++ toBytes (number % 10), ?_, ?_⟩
      · rw [List.length_append, length, one]
      · rw [← List.append_assoc, ← digits, ← toBytes_mul_add high small, Nat.div_add_mod]

theorem mem_intBytes {number : Int} {byte : UInt8} (member : byte ∈ intBytes number) :
    45 ≤ byte.toNat ∧ byte.toNat ≤ 57 := by
  rw [intBytes] at member
  rcases List.mem_append.mp member with sign | digit
  · split_ifs at sign
    · obtain rfl := List.mem_singleton.mp sign
      exact ⟨by decide, by decide⟩
    · cases sign
  · have digit := isDigit_of_mem digit
    simp only [isDigit, Bool.and_eq_true, decide_eq_true_eq, UInt8.le_iff_toNat_le] at digit
    exact ⟨le_trans (by decide) digit.1, digit.2⟩

end Decimal
