import Mathlib.Data.List.Lex
import Mathlib.Data.List.TakeWhile
import Mathlib.Order.Lattice

/-! Key ids are C strings, ordered by `strcmp`. -/

namespace Gaveta

/-- A NUL-terminated string without its terminator. -/
structure CString where
  bytes : List Nat
  nonNul : ∀ byte ∈ bytes, 0 < byte ∧ byte < 256
deriving DecidableEq

namespace CString

theorem bytes_injective : Function.Injective CString.bytes := by
  rintro ⟨left, _⟩ ⟨right, _⟩ same
  simpa using same

instance : LinearOrder CString := LinearOrder.lift' CString.bytes bytes_injective

/-- The string at the start of a buffer. -/
def ofBuffer (buffer : List UInt8) : CString where
  bytes := (buffer.takeWhile (· ≠ 0)).map UInt8.toNat
  nonNul := by
    intro value member
    obtain ⟨byte, inside, rfl⟩ := List.mem_map.mp member
    have notZero : byte ≠ 0 := by simpa using List.mem_takeWhile_imp inside
    refine ⟨Nat.pos_of_ne_zero fun zero => notZero ?_, byte.toNat_lt⟩
    exact UInt8.toNat_inj.mp zero

theorem ofBuffer_congr {left right : List UInt8}
    (same : left.takeWhile (fun byte => decide (byte ≠ 0)) =
      right.takeWhile fun byte => decide (byte ≠ 0)) : ofBuffer left = ofBuffer right :=
  bytes_injective (congrArg (List.map UInt8.toNat) same)

def empty : CString where
  bytes := []
  nonNul := by simp

def isEmpty (string : CString) : Bool := string.bytes.isEmpty

theorem not_lt_of_isEmpty {left right : CString} (empty : right.isEmpty = true) :
    ¬left < right := by
  have none : right.bytes = [] := List.isEmpty_iff.mp empty
  intro below
  have nothing : left.bytes < [] := none ▸ below
  exact List.not_lt_nil _ nothing

end CString

/-- `strcmp` on the bytes as unsigned characters: the first difference, or 0. -/
def strcmpBytes : List Nat → List Nat → Int
  | [], [] => 0
  | [], right :: _ => -(right : Int)
  | left :: _, [] => left
  | left :: lefts, right :: rights =>
      if left = right then strcmpBytes lefts rights else (left : Int) - right

def strcmp (left right : CString) : Int := strcmpBytes left.bytes right.bytes

theorem strcmpBytes_swap (left right : List Nat) :
    strcmpBytes left right = -strcmpBytes right left := by
  induction left generalizing right with
  | nil => cases right <;> simp [strcmpBytes]
  | cons byte rest ih =>
      cases right with
      | nil => simp [strcmpBytes]
      | cons other others =>
          simp only [strcmpBytes]
          by_cases same : byte = other
          · simpa [same] using ih others
          · simp only [same, Ne.symm same, ↓reduceIte]
            omega

theorem strcmpBytes_neg_iff (left right : List Nat) (positive : ∀ byte ∈ right, 0 < byte) :
    strcmpBytes left right < 0 ↔ left < right := by
  induction left generalizing right with
  | nil =>
      cases right with
      | nil => simp [strcmpBytes]
      | cons other others =>
          have otherPositive := positive other (by simp)
          simp [strcmpBytes, otherPositive]
  | cons byte rest ih =>
      cases right with
      | nil => simp [strcmpBytes]
      | cons other others =>
          rw [List.cons_lt_cons_iff, strcmpBytes]
          by_cases same : byte = other
          · simp [same, ih others (fun value member => positive value (by simp [member]))]
          · simp only [same, ↓reduceIte, false_and, or_false]
            omega

@[simp] theorem strcmp_neg_iff (left right : CString) : strcmp left right < 0 ↔ left < right :=
  strcmpBytes_neg_iff left.bytes right.bytes fun byte member => (right.nonNul byte member).1

@[simp] theorem strcmp_pos_iff (left right : CString) : 0 < strcmp left right ↔ right < left := by
  rw [← strcmp_neg_iff, strcmp, strcmp, strcmpBytes_swap]
  omega

@[simp] theorem strcmp_eq_zero_iff (left right : CString) : strcmp left right = 0 ↔ left = right := by
  have below := strcmp_neg_iff left right
  have above := strcmp_pos_iff left right
  constructor
  · intro zero
    apply le_antisymm
    · exact not_lt.mp (above.not.mp (by omega))
    · exact not_lt.mp (below.not.mp (by omega))
  · rintro rfl
    have notBelow := below.not.mpr (lt_irrefl left)
    have notAbove := above.not.mpr (lt_irrefl left)
    omega

end Gaveta
