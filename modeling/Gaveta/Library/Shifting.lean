import Gaveta.Library.GapSort

/-! Opening and closing a gap between the slots of an array. -/

namespace Scratch

open GapSort (contents)

variable {α : Type}

def moveDown (a : Scratch α) (i : Nat) : Scratch α := (a.look (i + 1)).set i (a.slots (i + 1))

/-- Moves `count` slots up by one, from the last one down to `start`. -/
def openGap (start : Nat) : Nat → Scratch α → Scratch α
  | 0, a => a
  | count + 1, a => openGap start count (a.moveUp (start + count))

def closeGap : Nat → Nat → Scratch α → Scratch α
  | _, 0, a => a
  | start, count + 1, a => closeGap (start + 1) count (a.moveDown start)

variable {a : Scratch α} {f : Nat → α} {size start count n pos : Nat}

theorem moveDown_slots (i index : Nat) :
    (a.moveDown i).slots index = if index = i then a.slots (i + 1) else a.slots index := by
  by_cases same : index = i
  · subst same
    simp [moveDown]
  · simp [moveDown, same]

theorem moveDown_within (i : Nat) :
    (a.moveDown i).Within size ↔ i + 1 < size ∧ a.Within size := by
  rw [moveDown, set_within, look_within]
  refine ⟨fun inside => inside.2, fun inside => ⟨?_, inside⟩⟩
  omega

theorem openGap_slots (index : Nat) :
    (openGap start count a).slots index =
      if start < index ∧ index ≤ start + count then a.slots (index - 1) else a.slots index := by
  induction count generalizing a with
  | zero => rw [openGap, if_neg (by omega)]
  | succ count ih =>
      rw [openGap, ih, moveUp_slots, moveUp_slots]
      by_cases last : index = start + count + 1
      · subst last
        rw [if_neg (by omega), if_pos rfl, if_pos (by omega), Nat.add_sub_cancel]
      · rw [if_neg last]
        by_cases moved : start < index ∧ index ≤ start + count
        · rw [if_pos moved, if_neg (by omega), if_pos (by omega)]
        · rw [if_neg moved, if_neg (by omega)]

theorem closeGap_slots (index : Nat) :
    (closeGap start count a).slots index =
      if start ≤ index ∧ index < start + count then a.slots (index + 1) else a.slots index := by
  induction count generalizing a start with
  | zero => rw [closeGap, if_neg (by omega)]
  | succ count ih =>
      rw [closeGap, ih, moveDown_slots, moveDown_slots]
      by_cases first : index = start
      · subst first
        rw [if_neg (by omega), if_pos rfl, if_pos (by omega)]
      · rw [if_neg first]
        by_cases moved : start + 1 ≤ index ∧ index < start + 1 + count
        · rw [if_pos moved, if_neg (by omega), if_pos (by omega)]
        · rw [if_neg moved, if_neg (by omega)]

theorem openGap_within :
    (openGap start count a).Within size ↔ (count = 0 ∨ start + count < size) ∧ a.Within size := by
  induction count generalizing a with
  | zero => simp [openGap]
  | succ count ih =>
      rw [openGap, ih, moveUp_within, ← and_assoc]
      refine and_congr_left fun _ => ?_
      omega

theorem closeGap_within :
    (closeGap start count a).Within size ↔ (count = 0 ∨ start + count < size) ∧ a.Within size := by
  induction count generalizing a start with
  | zero => simp [closeGap]
  | succ count ih =>
      rw [closeGap, ih, moveDown_within, ← and_assoc]
      refine and_congr_left fun _ => ?_
      omega

theorem length_contents : (contents f n).length = n := by
  simp [contents]

theorem getElem?_contents (index : Nat) :
    (contents f n)[index]? = if index < n then some (f index) else none := by
  by_cases inside : index < n <;> simp [contents, inside]

/-- A gap that is filled at once is an insertion into the list of the slots. -/
theorem contents_openGap (inside : pos ≤ n) (value : α) :
    contents ((openGap pos (n - pos) a).set pos value).slots (n + 1) =
      (contents a.slots n).insertIdx pos value := by
  apply List.ext_getElem?
  intro index
  rw [List.getElem?_insertIdx, length_contents, getElem?_contents, getElem?_contents,
    getElem?_contents, set_slots]
  rcases Nat.lt_trichotomy index pos with below | same | above
  · have unmoved : (openGap pos (n - pos) a).slots index = a.slots index := by
      rw [openGap_slots, if_neg (by omega)]
    rw [if_pos below, if_pos (by omega), if_pos (by omega), Function.update_of_ne (by omega),
      unmoved]
  · subst same
    rw [if_neg (Nat.lt_irrefl index), if_pos rfl, if_pos inside,
      if_pos (Nat.lt_succ_of_le inside), Function.update_self]
  · have notBelow : ¬index < pos := Nat.not_lt_of_gt above
    have different : index ≠ pos := Nat.ne_of_gt above
    rw [if_neg notBelow, if_neg different, Function.update_of_ne different, openGap_slots]
    by_cases last : index ≤ n
    · rw [if_pos (by omega), if_pos (by omega), if_pos (by omega)]
    · rw [if_neg (by omega), if_neg (by omega)]

theorem contents_closeGap (inside : pos < n) :
    contents (closeGap pos (n - 1 - pos) a).slots (n - 1) = (contents a.slots n).eraseIdx pos := by
  apply List.ext_getElem?
  intro index
  rw [List.getElem?_eraseIdx, getElem?_contents, getElem?_contents, getElem?_contents,
    closeGap_slots]
  by_cases below : index < pos
  · rw [if_pos below, if_pos (by omega), if_neg (by omega), if_pos (by omega)]
  · rw [if_neg below]
    by_cases last : index < n - 1
    · rw [if_pos last, if_pos (by omega), if_pos (by omega)]
    · rw [if_neg last, if_neg (by omega)]

theorem contents_succ (f : Nat → α) (n : Nat) : contents f (n + 1) = contents f n ++ [f n] := by
  rw [contents, List.range_succ, List.map_append]
  rfl

theorem contents_last (some : 0 < n) : contents f n = contents f (n - 1) ++ [f (n - 1)] := by
  rw [← contents_succ, Nat.sub_add_cancel some]

theorem contents_head? (some : 0 < n) : (contents f n).head? = Option.some (f 0) := by
  rw [List.head?_eq_getElem?, getElem?_contents, if_pos some]

theorem contents_copyIn (values : List α) :
    contents (a.copyIn n values).slots (n + values.length) = contents a.slots n ++ values := by
  induction values generalizing a n with
  | nil => simp [copyIn]
  | cons value rest ih =>
      rw [copyIn, List.length_cons, Nat.add_comm rest.length 1, ← Nat.add_assoc, ih, contents_succ,
        set_slots, Function.update_self, List.append_assoc, List.singleton_append]
      congr 1
      exact List.map_congr_left fun index member =>
        Function.update_of_ne (Nat.ne_of_lt (List.mem_range.mp member)) _ _

end Scratch
