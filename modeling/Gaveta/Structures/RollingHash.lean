import Gaveta.Structures.Murmur
import Mathlib.Algebra.BigOperators.Intervals
import Mathlib.Algebra.Order.Ring.Int
import Mathlib.Tactic.GCongr
import Mathlib.Tactic.Positivity
import Mathlib.Tactic.Ring

/-! `polynomial_rolling_hash_fn` of `HashTable.c` -/

namespace Gaveta

def checkedInt (value : Int) : Option Int :=
  if -2147483648 ≤ value ∧ value < 2147483648 then some value else none

def rollingModulus : Int := 1000000007

def rollHash (charSigned : Bool) : List Nat → UInt32 → Int → Option UInt32
  | [], hValue, _ => some hValue
  | byte :: rest, hValue, pPow => do
      let digit ← checkedInt (promoted charSigned byte - 97)
      let digit ← checkedInt (digit + 1)
      let term ← checkedInt (digit * pPow)
      let product ← checkedInt (pPow * 31)
      rollHash charSigned rest ((hValue + .ofInt term) % .ofInt rollingModulus)
        (product.tmod rollingModulus)

/-- `polynomial_rolling_hash_fn`; nothing if an `int` expression has no value. -/
def polynomialRollingHashFn (charSigned : Bool) (key : CString) : Option UInt32 := do
  let _ ← checkedInt key.bytes.length
  rollHash charSigned key.bytes 0 1

def RollsExactly (charSigned : Bool) (key : CString) : Prop :=
  ∃ result, polynomialRollingHashFn charSigned key = some result ∧
    result.toNat =
      (∑ i ∈ Finset.range key.bytes.length, (key.bytes.getD i 0 - 97 + 1) * 31 ^ i) % 1000000007

variable {charSigned : Bool} {bytes : List Nat} {hValue : UInt32} {t : Nat}

theorem checkedInt_some {value : Int} (lower : -2147483648 ≤ value) (upper : value < 2147483648) :
    checkedInt value = some value := if_pos ⟨lower, upper⟩

theorem checkedInt_eq_some {value result : Int} (same : checkedInt value = some result) :
    result = value ∧ value < 2147483648 := by
  rw [checkedInt] at same
  split_ifs at same with inside
  exact ⟨(Option.some.inj same).symm, inside.2⟩

theorem pow_le_of_le {t count : Nat} (low : t ≤ count) : (31 : Int) ^ t ≤ 31 ^ count :=
  pow_le_pow_right₀ (by decide) low

theorem next_power (low : t ≤ 5) : ((31 : Int) ^ t * 31).tmod rollingModulus = 31 ^ (t + 1) := by
  have small : (31 : Int) ^ (t + 1) ≤ 31 ^ 6 := pow_le_of_le (by omega)
  have positive : (0 : Int) ≤ 31 ^ (t + 1) := by positivity
  rw [← pow_succ, Int.tmod_eq_of_lt positive (lt_of_le_of_lt small (by decide))]

theorem rollHash_none (low : t ≤ 6) (long : 7 ≤ bytes.length + t) :
    rollHash charSigned bytes hValue (31 ^ t) = none := by
  induction bytes generalizing hValue t with
  | nil => exact absurd long (by simp; omega)
  | cons byte rest ih =>
      simp only [rollHash, Option.bind_eq_bind, Option.bind_eq_none_iff]
      intro _ _ digit _ term _ product multiplied
      obtain ⟨rfl, fits⟩ := checkedInt_eq_some multiplied
      have early : t ≤ 5 := by
        by_contra late
        obtain rfl : t = 6 := by omega
        exact absurd fits (by decide)
      rw [next_power early]
      rw [List.length_cons] at long
      exact ih (by omega) (by omega)

def IsLower (bytes : List Nat) : Prop := ∀ byte ∈ bytes, 97 ≤ byte ∧ byte ≤ 122

theorem rollHash_step {byte : Nat} {rest : List Nat} (first : 97 ≤ byte) (last : byte ≤ 122)
    (early : t ≤ 5) (reduced : hValue.toNat < 1000000007) :
    ∃ next : UInt32, next.toNat = (hValue.toNat + (byte - 97 + 1) * 31 ^ t) % 1000000007 ∧
      rollHash charSigned (byte :: rest) hValue (31 ^ t) =
        rollHash charSigned rest next (31 ^ (t + 1)) := by
  have digit : (byte : Int) - 97 + 1 = (byte - 97 + 1 : Nat) := by omega
  have small : (byte - 97 + 1) * 31 ^ t ≤ 26 * 31 ^ 5 := by
    gcongr
    · omega
    · decide
  have term : ((byte - 97 + 1 : Nat) : Int) * 31 ^ t = ((byte - 97 + 1) * 31 ^ t : Nat) := by
    push_cast
    rfl
  have power : (31 : Int) ^ t * 31 ≤ 31 ^ 6 := by
    rw [← pow_succ]
    exact pow_le_of_le (by omega)
  have positive : (0 : Int) ≤ 31 ^ t * 31 := by positivity
  have plain : promoted charSigned byte = byte := promoted_plain (Or.inr (by omega))
  refine ⟨(hValue + .ofInt ((byte - 97 + 1) * 31 ^ t : Nat)) % .ofInt rollingModulus, ?_, ?_⟩
  · have value := toNat_ofInt ((byte - 97 + 1) * 31 ^ t : Nat)
    have modulus : (UInt32.ofInt rollingModulus).toNat = 1000000007 := rfl
    rw [UInt32.toNat_mod, UInt32.toNat_add, modulus]
    omega
  · rw [rollHash, plain, checkedInt_some (by omega) (by omega), Option.bind_eq_bind,
      Option.bind_some, checkedInt_some (by omega) (by omega), Option.bind_some, digit, term,
      checkedInt_some (by omega) (by omega), Option.bind_some,
      checkedInt_some (by omega) (by omega), Option.bind_some, next_power early]

theorem rollHash_some (lower : IsLower bytes) (short : bytes.length + t ≤ 6)
    (reduced : hValue.toNat < 1000000007) :
    ∃ result, rollHash charSigned bytes hValue (31 ^ t) = some result ∧
      result.toNat =
        (hValue.toNat +
          ∑ i ∈ Finset.range bytes.length, (bytes.getD i 0 - 97 + 1) * 31 ^ (t + i)) %
            1000000007 := by
  induction bytes generalizing hValue t with
  | nil => exact ⟨hValue, rfl, by simp [Nat.mod_eq_of_lt reduced]⟩
  | cons byte rest ih =>
      obtain ⟨first, last⟩ := lower byte List.mem_cons_self
      rw [List.length_cons] at short
      obtain ⟨next, value, turn⟩ :=
        @rollHash_step charSigned hValue t byte rest first last (by omega) reduced
      obtain ⟨result, rolled, total⟩ := @ih next (t + 1)
        (fun other member => lower other (List.mem_cons_of_mem _ member)) (by omega)
        (value ▸ Nat.mod_lt _ (by decide))
      refine ⟨result, turn.trans rolled, ?_⟩
      have later : ∀ i, t + 1 + i = t + (i + 1) := fun i => by omega
      rw [total, value, List.length_cons, Finset.sum_range_succ', Nat.mod_add_mod]
      simp only [List.getD_cons_zero, List.getD_cons_succ, later, Nat.add_zero]
      rw [Nat.add_assoc, Nat.add_comm ((byte - 97 + 1) * 31 ^ t)]

/-- The powers of 31 stay `int`s for six characters. -/
theorem rolling_hash_exact_iff (charSigned : Bool) (key : CString) (lower : IsLower key.bytes) :
    RollsExactly charSigned key ↔ key.bytes.length ≤ 6 := by
  have start : (31 : Int) ^ 0 = 1 := rfl
  constructor
  · rintro ⟨result, rolled, _⟩
    by_contra long
    rw [polynomialRollingHashFn, Option.bind_eq_bind, Option.bind_eq_some_iff] at rolled
    obtain ⟨_, _, rolled⟩ := rolled
    rw [← start, rollHash_none (by decide) (by omega)] at rolled
    cases rolled
  · intro short
    obtain ⟨result, rolled, total⟩ := @rollHash_some charSigned key.bytes 0 0 lower short (by decide)
    refine ⟨result, ?_, ?_⟩
    · rw [polynomialRollingHashFn, checkedInt_some (by omega) (by omega), Option.bind_eq_bind,
        Option.bind_some, ← start, rolled]
    · simpa using total

theorem rolling_hash_exact_abc : RollsExactly true ⟨[97, 98, 99], by decide⟩ :=
  (rolling_hash_exact_iff true _ (by simp [IsLower])).mpr (by decide)

theorem rolling_hash_overflows :
    ¬∀ charSigned key, IsLower key.bytes → RollsExactly charSigned key := by
  intro exact_
  obtain ⟨result, rolled, _⟩ := exact_ true ⟨List.replicate 7 97, by decide⟩ (by simp [IsLower])
  have none : polynomialRollingHashFn true ⟨List.replicate 7 97, by decide⟩ = none := by decide
  rw [none] at rolled
  cases rolled

end Gaveta
