import Mathlib.Order.Lattice
import Mathlib.Data.List.Basic

/-! Lists in strictly increasing order of a key, and the place of a bound in them. -/

namespace SortedCut

variable {κ ι : Type} [LinearOrder ι] {key : κ → ι} {bound : ι} {values before after : List κ}

structure Cut (key : κ → ι) (bound : ι) (before after : List κ) : Prop where
  lower : ∀ value ∈ before, key value < bound
  upper : ∀ value ∈ after, bound < key value

theorem Cut.countP (cut : Cut key bound before after) :
    ((before ++ after).countP fun value => key value < bound) = before.length := by
  have all : (before.countP fun value => key value < bound) = before.length := by
    rw [List.countP_eq_length]
    intro value member
    exact decide_eq_true (cut.lower value member)
  have none : (after.countP fun value => key value < bound) = 0 := by
    rw [List.countP_eq_zero]
    intro value member below
    exact lt_asymm (cut.upper value member) (of_decide_eq_true below)
  rw [List.countP_append, all, none, Nat.add_zero]

theorem Cut.ne {member : κ} (cut : Cut key bound before after) (listed : member ∈ before ++ after) :
    key member ≠ bound := by
  rcases List.mem_append.mp listed with low | high
  · exact ne_of_lt (cut.lower member low)
  · exact ne_of_gt (cut.upper member high)

theorem Cut.insert {value : κ} (cut : Cut key (key value) before after)
    (sorted : (before ++ after).Pairwise fun left right => key left < key right) :
    (before ++ value :: after).Pairwise fun left right => key left < key right := by
  obtain ⟨front, back, across⟩ := List.pairwise_append.mp sorted
  refine List.pairwise_append.mpr ⟨front, List.pairwise_cons.mpr ⟨cut.upper, back⟩, ?_⟩
  intro left leftMember right rightMember
  rcases List.mem_cons.mp rightMember with rfl | rightMember
  · exact cut.lower left leftMember
  · exact across left leftMember right rightMember

theorem Cut.slot {value : κ} {index : Nat} (cut : Cut key bound before after)
    (same : key value = bound) :
    (∃ other, (before ++ value :: after)[index]? = some other ∧ key other = bound) ↔
      before.length = index := by
  constructor
  · rintro ⟨other, slot, equal⟩
    rcases Nat.lt_trichotomy index before.length with low | here | high
    · rw [List.getElem?_append_left low] at slot
      exact absurd equal (ne_of_lt (cut.lower other (List.mem_of_getElem? slot)))
    · exact here.symm
    · obtain ⟨rest, rfl⟩ := Nat.exists_eq_add_of_lt high
      rw [List.getElem?_append_right (by omega),
        show before.length + rest + 1 - before.length = rest + 1 by omega,
        List.getElem?_cons_succ] at slot
      exact absurd equal (ne_of_gt (cut.upper other (List.mem_of_getElem? slot)))
  · rintro rfl
    exact ⟨value, by simp, same⟩

theorem first_of_least {value : κ} (least : ∀ other, key value ≤ key other)
    (sorted : values.Pairwise fun left right => key left < key right) (member : value ∈ values) :
    ∃ rest, values = value :: rest := by
  cases values with
  | nil => cases member
  | cons first rest =>
      rcases List.mem_cons.mp member with rfl | later
      · exact ⟨rest, rfl⟩
      · have below := (List.pairwise_cons.mp sorted).1 value later
        exact absurd below (not_lt_of_ge (least first))

end SortedCut
