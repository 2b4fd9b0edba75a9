import Gaveta.Library.Scratch
import Mathlib.Order.Defs.PartialOrder

/-!
Insertion with a gap: values of slots that are `h` apart are put in order by moving larger ones up
and filling the hole that is left.
-/

namespace GapSort

variable {α : Type} {f : Nat → α} {h i j k n : Nat} {value : α}

def contents (f : Nat → α) (count : Nat) : List α := (List.range count).map f

theorem contents_update (f : Nat → α) (n j : Nat) (value : α) :
    contents (Function.update f j value) n = (contents f n).set j value :=
  (Scratch.set_range_map f n j value).symm

theorem contents_move (inside : j < n) (from_ : k < n) (different : k ≠ j) :
    (contents (Function.update (Function.update f j (f k)) k value) n).Perm
      (contents (Function.update f j value) n) := by
  have length : (contents (Function.update f j value) n).length = n := by simp [contents]
  have jInside : j < (contents (Function.update f j value) n).length := by omega
  have kInside : k < (contents (Function.update f j value) n).length := by omega
  have swapped := List.set_set_perm jInside kInside
  have atHole : (contents (Function.update f j value) n)[j] = value := by
    simp [contents]
  have atValue : (contents (Function.update f j value) n)[k] = f k := by
    simp [contents, different]
  rw [atHole, atValue, ← contents_update, ← contents_update, Function.update_idem] at swapped
  exact swapped

variable [Preorder α]

def GapSorted (h count : Nat) (f : Nat → α) : Prop := ∀ t, t + h < count → f t ≤ f (t + h)

/-- The values up to slot `i` with a hole at `j`, into which `value` has to fit. -/
structure Hole (h i : Nat) (value : α) (f : Nat → α) (j : Nat) : Prop where
  inside : j ≤ i
  away : ∀ t, t + h ≤ i → t ≠ j → t + h ≠ j → f t ≤ f (t + h)
  above : j + h ≤ i → value < f (j + h)
  across : ∀ t, t + h = j → j + h ≤ i → f t ≤ f (j + h)

theorem GapSorted.hole (sorted : GapSorted h i f) (positive : 1 ≤ h) (value : α) :
    Hole h i value f i := by
  refine ⟨Nat.le_refl i, fun t bound _ other => sorted t (by omega), fun beyond => ?_,
    fun t _ beyond => ?_⟩
  · omega
  · omega

theorem Hole.move (hole : Hole h i value f j) (positive : 1 ≤ h) (enough : h ≤ j)
    (larger : value < f (j - h)) :
    Hole h i value (Function.update f j (f (j - h))) (j - h) := by
  have inside := hole.inside
  have back : j - h + h = j := Nat.sub_add_cancel enough
  constructor
  · omega
  · intro t bound notHole notNext
    have notHere : t + h ≠ j := by omega
    rw [Function.update_of_ne notHere]
    by_cases here : t = j
    · subst here
      rw [Function.update_self]
      exact hole.across _ back bound
    · rw [Function.update_of_ne here]
      exact hole.away t bound here notHere
  · intro _
    rw [back, Function.update_self]
    exact larger
  · intro t next _
    have notHere : t ≠ j := by omega
    rw [back, Function.update_self, Function.update_of_ne notHere, ← next]
    exact hole.away t (by omega) notHere (by omega)

theorem Hole.fill (hole : Hole h i value f j) (positive : 1 ≤ h)
    (fits : h ≤ j → f (j - h) ≤ value) : GapSorted h (i + 1) (Function.update f j value) := by
  intro t bound
  by_cases here : t = j
  · subst here
    rw [Function.update_self, Function.update_of_ne (by omega)]
    exact le_of_lt (hole.above (by omega))
  · rw [Function.update_of_ne here]
    by_cases next : t + h = j
    · have before : f t ≤ value := by
        have below := fits (by omega)
        rwa [← next, Nat.add_sub_cancel] at below
      rwa [next, Function.update_self]
    · rw [Function.update_of_ne next]
      exact hole.away t (by omega) here next

theorem GapSorted.sorted (sorted : GapSorted 1 n f) (below : i ≤ j) (inside : j < n) :
    f i ≤ f j := by
  induction below with
  | refl => exact le_rfl
  | step below ih => exact le_trans (ih (by omega)) (sorted _ inside)

end GapSort
