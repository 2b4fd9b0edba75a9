import Mathlib.Tactic.Common

/-! Steps that lose no bit: products with a unit, rotations and shifts added to the word. -/

namespace BitMixing

variable {width : Nat} {left right : BitVec width}

theorem mul_injective {factor : BitVec width} (inverse : BitVec width)
    (unit : factor * inverse = 1) :
    Function.Injective fun word => word * factor := by
  intro left right same
  have undone := congrArg (· * inverse) same
  simpa only [BitVec.mul_assoc, unit, BitVec.mul_one, BitVec.ofNat_eq_ofNat] using undone

theorem xor_injective (other : BitVec width) :
    Function.Injective fun word => other ^^^ word := by
  intro left right same
  have undone := congrArg (other ^^^ ·) same
  simpa only [← BitVec.xor_assoc, BitVec.xor_self, BitVec.zero_xor] using undone

/-- The upper bits stay, and each lower one can be read from them. -/
theorem xorShift_injective (shift : Nat) (positive : 0 < shift) :
    Function.Injective fun word : BitVec width => word ^^^ word >>> shift := by
  intro left right same
  have upper : ∀ count i, width ≤ i + count → left.getLsbD i = right.getLsbD i := by
    intro count
    induction count with
    | zero =>
        intro i above
        rw [BitVec.getLsbD_of_ge left i above, BitVec.getLsbD_of_ge right i above]
    | succ count ih =>
        intro i above
        have bit := congrArg (fun word => BitVec.getLsbD word i) same
        simp only [BitVec.getLsbD_xor, BitVec.getLsbD_ushiftRight, ih (shift + i) (by omega)] at bit
        exact Bool.xor_left_inj.mp bit
  exact BitVec.eq_of_getLsbD_eq fun i inside => upper width i (by omega)

theorem rotate_injective (count : Nat) (inside : count < width) :
    Function.Injective fun word : BitVec width => word <<< count ||| word >>> (width - count) := by
  intro left right same
  refine BitVec.eq_of_getLsbD_eq fun i below => ?_
  by_cases low : i + count < width
  · have bit := congrArg (fun word => BitVec.getLsbD word (i + count)) same
    have notBelow : ¬i + count < count := by omega
    have beyond : width ≤ width - count + (i + count) := by omega
    simpa [low, notBelow, BitVec.getLsbD_of_ge _ _ beyond, below] using bit
  · have bit := congrArg (fun word => BitVec.getLsbD word (i + count - width)) same
    have inCount : i + count - width < count := by omega
    have place : width - count + (i + count - width) = i := by omega
    simpa [inCount, place, below] using bit

end BitMixing
