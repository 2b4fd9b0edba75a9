import Mathlib.Data.List.Sort
import Mathlib.Order.Lattice

/-! Records sorted by a key, without repetitions: insertion, removal and lookup as a map. -/

namespace SortedRecords

variable {κ ι : Type} [LinearOrder ι] (key : κ → ι)

def Sorted (records : List κ) : Prop :=
  records.Pairwise fun left right => key left < key right

def insert (k : κ) (records : List κ) : List κ :=
  records.orderedInsert (fun left right => key left ≤ key right) k

def remove (id : ι) (records : List κ) : List κ := records.filter fun other => key other ≠ id

def find (id : ι) (records : List κ) : Option κ := records.find? fun other => key other = id

section Split

variable {key} {k : κ} {front back : List κ} {records : List κ}

theorem insert_split (lower : ∀ other ∈ front, key other < key k)
    (upper : ∀ other ∈ back, key k < key other) :
    insert key k (front ++ back) = front ++ k :: back := by
  induction front with
  | nil =>
      cases back with
      | nil => rfl
      | cons other back => exact List.orderedInsert_cons_of_le _ _ (upper other (by simp)).le
  | cons other front ih =>
      have below := lower other (by simp)
      rw [List.cons_append, insert, List.orderedInsert_cons, if_neg (not_le.mpr below)]
      exact congrArg (other :: ·) (ih fun third member => lower third (by simp [member]))

theorem find_eq_none_iff {id : ι} :
    find key id records = none ↔ ∀ other ∈ records, key other ≠ id := by
  simp [find]

theorem find_of_mem (sorted : Sorted key records) (member : k ∈ records) :
    find key (key k) records = some k := by
  induction records with
  | nil => cases member
  | cons other records ih =>
      obtain ⟨above, rest⟩ := List.pairwise_cons.mp sorted
      rw [find, List.find?_cons]
      rcases List.mem_cons.mp member with rfl | member
      · simp
      · have different : key other ≠ key k := ne_of_lt (above k member)
        simp only [different, decide_false]
        exact ih rest member

end Split

end SortedRecords
