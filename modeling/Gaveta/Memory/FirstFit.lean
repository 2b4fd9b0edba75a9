import Gaveta.Memory.Heap
import Mathlib.Algebra.Order.Floor.Div

/-! Which pages a request gets when the counter of free pages covers it. -/

namespace Gaveta

structure FreeRun (m : Memory) (count i : Nat) : Prop where
  inside : i + count ≤ m.len
  free : ∀ j, i ≤ j → j < i + count → (m.pages j).free = true

theorem numPages_eq_ceilDiv (bytes : Nat) :
    numPages bytes = (bytes + allocHeaderSize) ⌈/⌉ pageSize := by
  rw [Nat.ceilDiv_eq_add_pred_div]
  rfl

section Search

variable {m : Memory} {count rest i found : Nat}

theorem firstFit_least (search : firstFit m.pages m.len count rest i = some found) :
    i ≤ found ∧ ∀ earlier, i ≤ earlier → earlier < found → ¬FreeRun m count earlier := by
  induction rest generalizing i with
  | zero => cases search
  | succ rest ih =>
      rw [firstFit] at search
      split_ifs at search with beyond fits
      · obtain rfl := Option.some.inj search
        exact ⟨le_rfl, fun earlier lower upper => by omega⟩
      · obtain ⟨later, least⟩ := ih search
        refine ⟨by omega, fun earlier lower upper run => ?_⟩
        rcases Nat.eq_or_lt_of_le lower with rfl | lower
        · refine fits ?_
          simp only [List.all_eq_true, List.mem_range'_1]
          exact fun j bounds => run.free j bounds.1 bounds.2
        · exact least earlier lower upper run

theorem firstFit_missing (positive : 0 < count) :
    firstFit m.pages m.len count m.len 0 = none ↔ ∀ first, ¬FreeRun m count first := by
  constructor
  · intro search first run
    obtain ⟨j, lower, upper, taken⟩ :=
      firstFit_none search (by omega) (Nat.zero_le first) run.inside positive
    rw [run.free j lower upper] at taken
    cases taken
  · intro none
    rw [Option.eq_none_iff_forall_ne_some]
    intro found search
    obtain ⟨inside, free⟩ := firstFit_some search
    exact none found ⟨inside, free⟩

end Search

structure ServesFirstFit (m : Memory) (bytes : Nat) : Prop where
  served : (∃ i, FreeRun m (numPages bytes) i) →
    ∃ i after, FreeRun m (numPages bytes) i ∧
      (∀ earlier < i, ¬FreeRun m (numPages bytes) earlier) ∧
      gAllocate m bytes = some (after, some (i * pageSize + allocHeaderSize)) ∧
      after.freePageNum + numPages bytes = m.freePageNum ∧
      ∀ j, after.pages j =
        if i ≤ j ∧ j < i + numPages bytes then { free := false, used := true } else m.pages j
  fragmented : (∀ i, ¬FreeRun m (numPages bytes) i) →
    ∃ left, gAllocateOrExit m bytes = .error left ∧ left.pages = m.pages

/-- `g_allocate` takes the first run of free pages that is long enough, and ends the process
without a change of the page table if there is none. -/
theorem gAllocate_first_fit (m : Memory) (bytes : Nat) (asked : 0 < bytes) (fits : bytes < m.size)
    (enough : (bytes + allocHeaderSize) ⌈/⌉ pageSize ≤ m.freePageNum) :
    ServesFirstFit m bytes := by
  rw [← numPages_eq_ceilDiv] at enough
  have accepted : ¬(bytes = 0 ∨ m.size ≤ bytes) := by omega
  have positive := HeapInvariant.count_pos bytes
  constructor
  · rintro ⟨first, run⟩
    cases search : firstFit m.pages m.len (numPages bytes) m.len 0 with
    | none => exact absurd run ((firstFit_missing positive).mp search first)
    | some i =>
        obtain ⟨inside, free⟩ := firstFit_some search
        obtain ⟨_, least⟩ := firstFit_least search
        refine ⟨i, semPost (takePages (semWait m) i (numPages bytes)), ⟨inside, free⟩,
          fun earlier less => least earlier (Nat.zero_le _) less, ?_, ?_, fun j => rfl⟩
        · rw [gAllocate_served enough, if_neg accepted, search]
          rfl
        · exact Nat.sub_add_cancel enough
  · intro none
    have search := (firstFit_missing positive).mpr none
    have missing : numPages bytes - m.freePageNum = 0 := by omega
    refine ⟨semPost (semWait m), ?_, rfl⟩
    simp only [gAllocateOrExit, if_neg (not_or.mp accepted).1, if_neg (not_or.mp accepted).2,
      missing, replacePages, Bool.true_eq_false, ↓reduceIte, semWait, search]

theorem gAllocate_first_fit_gap :
    ServesFirstFit (gDeallocate twoBlocks.memory (some 8)) 500 ∧
      (gAllocate (gDeallocate twoBlocks.memory (some 8)) 500).map Prod.snd = some (some 8) :=
  ⟨gAllocate_first_fit _ 500 (by decide) (by decide) (by decide +kernel), by decide +kernel⟩

end Gaveta
