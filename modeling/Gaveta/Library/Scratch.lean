import Mathlib.Data.List.Basic
import Mathlib.Logic.Function.Basic

/-! Local arrays of a C function, with the indices that it uses. -/

/-- An array without an end, and the indices used so far. -/
structure Scratch (α : Type) where
  slots : Nat → α
  uses : List Nat

namespace Scratch

variable {α : Type}

def filled (value : α) : Scratch α := { slots := fun _ => value, uses := [] }

@[simps] def look (a : Scratch α) (i : Nat) : Scratch α := { a with uses := i :: a.uses }

@[simps] def set (a : Scratch α) (i : Nat) (value : α) : Scratch α :=
  { slots := Function.update a.slots i value, uses := i :: a.uses }

def moveUp (a : Scratch α) (i : Nat) : Scratch α := (a.look i).set (i + 1) (a.slots i)

def copyIn (a : Scratch α) (start : Nat) : List α → Scratch α
  | [] => a
  | value :: rest => (a.set start value).copyIn (start + 1) rest

def copyOut (a : Scratch α) (start count : Nat) : Scratch α × List α :=
  ({ a with uses := List.range' start count ++ a.uses }, (List.range' start count).map a.slots)

def Within (a : Scratch α) (size : Nat) : Prop := ∀ i ∈ a.uses, i < size

theorem set_range_map (f : Nat → α) (count index : Nat) (value : α) :
    ((List.range count).map f).set index value =
      (List.range count).map (Function.update f index value) := by
  apply List.ext_getElem?
  intro slot
  rw [List.getElem?_set]
  by_cases same : index = slot
  · subst same
    by_cases inside : index < count <;> simp [inside]
  · by_cases inside : slot < count <;> simp [same, inside, Ne.symm same]

variable {a : Scratch α} {size i start count : Nat} {value : α}

theorem moveUp_slots (index : Nat) :
    (a.moveUp i).slots index = if index = i + 1 then a.slots i else a.slots index := by
  by_cases same : index = i + 1
  · subst same
    simp [moveUp]
  · simp [moveUp, same]

theorem copyIn_slots (values : List α) (index : Nat) :
    (a.copyIn start values).slots index =
      if start ≤ index then values[index - start]?.getD (a.slots index) else a.slots index := by
  induction values generalizing a start with
  | nil => simp [copyIn]
  | cons value rest ih =>
      rw [copyIn, ih]
      rcases Nat.lt_trichotomy index start with below | same | above
      · have different : index ≠ start := Nat.ne_of_lt below
        have before : ¬start ≤ index := Nat.not_le_of_lt below
        have later : ¬start + 1 ≤ index := by omega
        simp [before, later, different]
      · subst same
        have later : ¬index + 1 ≤ index := by omega
        simp [later]
      · have different : index ≠ start := Nat.ne_of_gt above
        have after : start + 1 ≤ index := above
        have before : start ≤ index := by omega
        have next : index - start = index - (start + 1) + 1 := by omega
        rw [if_pos after, if_pos before, next, List.getElem?_cons_succ, set_slots,
          Function.update_of_ne different]

theorem filled_copyIn (values : List α) (inside : i < values.length) :
    ((filled value).copyIn 0 values).slots i = values[i] := by
  rw [copyIn_slots, if_pos (Nat.zero_le i), Nat.sub_zero, List.getElem?_eq_getElem inside,
    Option.getD_some]

theorem filled_copyIn_rest (values : List α) (outside : values.length ≤ i) :
    ((filled value).copyIn 0 values).slots i = value := by
  rw [copyIn_slots, if_pos (Nat.zero_le i), Nat.sub_zero, List.getElem?_eq_none outside]
  rfl

@[simp] theorem filled_within : (filled value).Within size := by
  simp [Within, filled]

@[simp] theorem look_within : (a.look i).Within size ↔ i < size ∧ a.Within size := by
  simp [Within]

@[simp] theorem set_within : (a.set i value).Within size ↔ i < size ∧ a.Within size := by
  simp [Within]

@[simp] theorem moveUp_within : (a.moveUp i).Within size ↔ i + 1 < size ∧ a.Within size := by
  rw [moveUp, set_within, look_within]
  refine ⟨fun inside => ⟨inside.1, inside.2.2⟩, fun inside => ⟨inside.1, ?_, inside.2⟩⟩
  omega

theorem copyIn_within (values : List α) :
    (a.copyIn start values).Within size ↔
      (values = [] ∨ start + values.length ≤ size) ∧ a.Within size := by
  induction values generalizing a start with
  | nil => simp [copyIn]
  | cons value rest ih =>
      rw [copyIn, ih, set_within, List.length_cons]
      cases rest with
      | nil =>
          simp only [List.length_nil, List.cons_ne_nil, true_or, true_and, false_or, Nat.zero_add,
            Nat.add_one_le_iff]
      | cons next rest =>
          simp only [List.cons_ne_nil, List.length_cons, false_or, ← and_assoc]
          refine and_congr_left fun _ => ?_
          omega

theorem copyOut_within :
    (a.copyOut start count).1.Within size ↔ (count = 0 ∨ start + count ≤ size) ∧ a.Within size := by
  simp only [Within, copyOut, List.mem_append, List.mem_range'_1, or_imp, forall_and]
  refine and_congr_left fun _ => ⟨fun inside => ?_, fun inside i bounds => ?_⟩
  · by_contra outside
    have last := inside (start + count - 1) (by omega)
    omega
  · omega

@[simp] theorem copyOut_eq_nil : (a.copyOut start count).2 = [] ↔ count = 0 := by
  simp [copyOut]

theorem mem_copyOut : value ∈ (a.copyOut start count).2 ↔
    ∃ i, (start ≤ i ∧ i < start + count) ∧ a.slots i = value := by
  simp [copyOut]

theorem copyOut_eq (values : List α) (same : ∀ i (inside : i < values.length), a.slots i = values[i])
    (long : start + count ≤ values.length) :
    (a.copyOut start count).2 = (values.drop start).take count := by
  refine List.ext_getElem ?_ fun index left right => ?_
  · simp [copyOut]
    omega
  · simp only [copyOut, List.length_map, List.length_range'] at left
    simp only [copyOut, List.getElem_map, List.getElem_range', List.getElem_take,
      List.getElem_drop, Nat.one_mul]
    exact same _ (by omega)

end Scratch
