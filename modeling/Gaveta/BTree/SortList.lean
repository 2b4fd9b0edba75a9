import Gaveta.Library.GapSort
import Gaveta.Library.Scratch
import Mathlib.Tactic.Common

/-! `sort_list` of `BTree.c` -/

namespace Gaveta

open GapSort

/-- The loop over `j`: what it leaves of the array, and the slot for `aux`. -/
def shiftLarger (h : Nat) (positive : 1 ≤ h) (aux : UInt16) (A : Scratch UInt16) (j : Nat) :
    Scratch UInt16 × Nat :=
  if h ≤ j then
    let A := A.look (j - h)
    if aux < A.slots (j - h) then
      shiftLarger h positive aux ((A.look (j - h)).set j (A.slots (j - h))) (j - h)
    else (A, j)
  else (A, j)
termination_by j

def insertSlot (h : Nat) (positive : 1 ≤ h) (A : Scratch UInt16) (i : Nat) : Scratch UInt16 :=
  let shifted := shiftLarger h positive (A.slots i) (A.look i) i
  shifted.1.set shifted.2 (A.slots i)

def insertSlots (h : Nat) (positive : 1 ≤ h) (A : Scratch UInt16) : Nat → Scratch UInt16
  | 0 => A
  | count + 1 => insertSlot h positive (insertSlots h positive A count) (h + count)

def sortPasses (n h : Nat) (A : Scratch UInt16) : Scratch UInt16 :=
  if positive : 1 ≤ h then sortPasses n (h / 3) (insertSlots h positive A (n - h)) else A
termination_by h

def firstGap (n h : Nat) : Nat := if h < n / 3 then firstGap n (3 * h + 1) else h
termination_by n - h

def sortList (A : Scratch UInt16) (n : Int) : Scratch UInt16 :=
  if n < 1 then A else sortPasses n.toNat (firstGap n.toNat 1) A

structure Reorders (n : Nat) (before after : Scratch UInt16) : Prop where
  values : (contents after.slots n).Perm (contents before.slots n)
  rest : ∀ i, n ≤ i → after.slots i = before.slots i
  uses : before.Within n → after.Within n

section Reorders

variable {n : Nat} {before middle after : Scratch UInt16}

theorem Reorders.refl (n : Nat) (A : Scratch UInt16) : Reorders n A A :=
  ⟨.refl _, fun _ _ => rfl, id⟩

theorem Reorders.trans (first : Reorders n before middle) (second : Reorders n middle after) :
    Reorders n before after :=
  ⟨second.values.trans first.values, fun i outside => (second.rest i outside).trans
    (first.rest i outside), fun within => second.uses (first.uses within)⟩

end Reorders

local instance preorderUInt16 : Preorder UInt16 where
  le_refl := UInt16.le_refl
  le_trans _ _ _ := UInt16.le_trans
  lt_iff_le_not_ge left right := by
    simp only [UInt16.lt_iff_toNat_lt, UInt16.le_iff_toNat_le]
    omega

section Pass

variable {n h i j : Nat} {positive : 1 ≤ h} {aux : UInt16} {A start : Scratch UInt16}

theorem shiftLarger_hole (hole : Hole h i aux A.slots j) :
    let shifted := shiftLarger h positive aux A j
    Hole h i aux shifted.1.slots shifted.2 ∧
      (h ≤ shifted.2 → shifted.1.slots (shifted.2 - h) ≤ aux) := by
  induction j using Nat.strongRecOn generalizing A with
  | ind j ih =>
      rw [shiftLarger]
      dsimp only
      split_ifs with enough larger
      · exact ih (j - h) (by omega) (hole.move positive enough larger)
      · exact ⟨hole, fun _ => UInt16.not_lt.mp larger⟩
      · exact ⟨hole, fun above => absurd above enough⟩

theorem shiftLarger_reorders (inside : j < n) :
    let shifted := shiftLarger h positive aux A j
    shifted.2 < n ∧ Reorders n (A.set j aux) (shifted.1.set shifted.2 aux) := by
  induction j using Nat.strongRecOn generalizing A with
  | ind j ih =>
      rw [shiftLarger]
      dsimp only
      split_ifs with enough larger
      · obtain ⟨below, later⟩ := ih (j - h) (by omega) (by omega)
          (A := ((A.look (j - h)).look (j - h)).set j (A.slots (j - h)))
        refine ⟨below, Reorders.trans ⟨?_, ?_, ?_⟩ later⟩
        · exact contents_move inside (by omega) (by omega)
        · intro slot outside
          have notHere : slot ≠ j := by omega
          have notBelow : slot ≠ j - h := by omega
          simp [notHere, notBelow]
        · simp only [Scratch.set_within, Scratch.look_within]
          rintro ⟨_, within⟩
          exact ⟨by omega, by omega, by omega, by omega, within⟩
      · refine ⟨inside, .refl _, fun _ _ => rfl, ?_⟩
        simp only [Scratch.set_within, Scratch.look_within]
        rintro ⟨_, within⟩
        exact ⟨inside, by omega, within⟩
      · exact ⟨inside, .refl n _⟩

theorem insertSlot_reorders (inside : i < n) : Reorders n A (insertSlot h positive A i) := by
  obtain ⟨_, later⟩ := @shiftLarger_reorders n h i positive (A.slots i) (A.look i) inside
  have same : ((A.look i).set i (A.slots i)).slots = A.slots := Function.update_eq_self i A.slots
  refine Reorders.trans ⟨?_, fun slot _ => congrFun same slot, ?_⟩ later
  · rw [same]
  · simp only [Scratch.set_within, Scratch.look_within]
    exact fun within => ⟨inside, inside, within⟩

theorem insertSlot_sorted (sorted : GapSorted h i A.slots) :
    GapSorted h (i + 1) (insertSlot h positive A i).slots := by
  have hole : Hole h i (A.slots i) (A.look i).slots i := sorted.hole positive _
  obtain ⟨last, fits⟩ := @shiftLarger_hole h i i positive (A.slots i) (A.look i) hole
  exact last.fill positive fits

theorem insertSlots_reorders {count : Nat} (inside : h + count ≤ n) :
    Reorders n A (insertSlots h positive A count) := by
  induction count with
  | zero => exact .refl n A
  | succ count ih => exact (ih (by omega)).trans (insertSlot_reorders (by omega))

theorem insertSlots_sorted (count : Nat) :
    GapSorted h (h + count) (insertSlots h positive A count).slots := by
  induction count with
  | zero => exact fun t bound => absurd bound (by omega)
  | succ count ih => exact insertSlot_sorted ih

end Pass

inductive Gap : Nat → Prop
  | one : Gap 1
  | next {h : Nat} (gap : Gap h) : Gap (3 * h + 1)

theorem firstGap_gap {n h : Nat} (gap : Gap h) : Gap (firstGap n h) := by
  fun_induction firstGap n h with
  | case1 h below ih => exact ih gap.next
  | case2 h above => exact gap

theorem firstGap_le {n h : Nat} (inside : h ≤ n) : firstGap n h ≤ n := by
  fun_induction firstGap n h with
  | case1 h below ih => exact ih (by omega)
  | case2 h above => exact inside

section Passes

variable {n h : Nat} {A : Scratch UInt16}

theorem sortPasses_reorders (inside : h ≤ n) : Reorders n A (sortPasses n h A) := by
  induction h using Nat.strongRecOn generalizing A with
  | ind h ih =>
      rw [sortPasses]
      split_ifs with positive
      · exact (insertSlots_reorders (by omega)).trans (ih (h / 3) (by omega) (by omega))
      · exact .refl n A

theorem sortPasses_sorted (gap : Gap h) (inside : h ≤ n) :
    GapSorted 1 n (sortPasses n h A).slots := by
  induction gap generalizing A with
  | one =>
      have positive : 1 ≤ 1 := Nat.le_refl 1
      rw [sortPasses, dif_pos positive, sortPasses, dif_neg (by decide)]
      have sorted := @insertSlots_sorted 1 positive A (n - 1)
      rwa [Nat.add_sub_cancel' inside] at sorted
  | @next h gap ih =>
      have third : (3 * h + 1) / 3 = h := by omega
      rw [sortPasses, dif_pos (by omega), third]
      exact ih (by omega)

end Passes

theorem sort_list_sorts (slots : Nat → UInt16) (n : Int) :
    (contents (sortList ⟨slots, []⟩ n).slots n.toNat).Pairwise (· ≤ ·) ∧
      (contents (sortList ⟨slots, []⟩ n).slots n.toNat).Perm (contents slots n.toNat) ∧
      (∀ i : Nat, n ≤ i → (sortList ⟨slots, []⟩ n).slots i = slots i) ∧
      ∀ i ∈ (sortList ⟨slots, []⟩ n).uses, (i : Int) < n := by
  obtain ⟨sorted, result⟩ : ∃ sorted, sortList ⟨slots, []⟩ n = sorted := ⟨_, rfl⟩
  rw [result]
  by_cases empty : n < 1
  · have same : sorted = { slots := slots, uses := [] } := result.symm.trans (if_pos empty)
    have none : n.toNat = 0 := by omega
    rw [same, none]
    simp [contents]
  · have inside : firstGap n.toNat 1 ≤ n.toNat := firstGap_le (by omega)
    have runs : sorted = sortPasses n.toNat (firstGap n.toNat 1) { slots := slots, uses := [] } :=
      result.symm.trans (if_neg empty)
    have reorders : Reorders n.toNat { slots := slots, uses := [] } sorted :=
      runs ▸ sortPasses_reorders inside
    have ordered : GapSorted 1 n.toNat sorted.slots :=
      runs ▸ sortPasses_sorted (firstGap_gap .one) inside
    refine ⟨?_, reorders.values, fun i outside => reorders.rest i (by omega), fun i used => ?_⟩
    · rw [contents, List.pairwise_map]
      refine List.pairwise_lt_range.imp_of_mem fun {left right} _ member less => ?_
      exact ordered.sorted (Nat.le_of_lt less) (List.mem_range.mp member)
    · have below := reorders.uses (by simp [Scratch.Within]) i used
      omega

end Gaveta
