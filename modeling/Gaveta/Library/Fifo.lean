import Mathlib.Data.List.Nodup
import Mathlib.Data.List.Induction

/-!
Queues of bounded length that give up their oldest item, and what a run of pushes takes from them.
-/

namespace Fifo

variable {α : Type}

def dropped (limit : Nat) (queue : List α) : List α := queue.take (queue.length + 1 - limit)

def push (limit : Nat) (queue : List α) (item : α) : List α :=
  (queue ++ [item]).drop (queue.length + 1 - limit)

def pushAll (limit : Nat) (queue items : List α) : List α := items.foldl (push limit) queue

/-- No push takes out an item that is in use at that push; `frames` lists what is in use at each. -/
def Spares (limit : Nat) (queue : List α) (frames : List (List α)) : Prop :=
  ∀ release ∈ (frames.drop (limit - queue.length)).zip queue, release.2 ∉ release.1

section Push

variable {limit : Nat} {queue : List α} {item : α}

theorem dropped_room (room : queue.length < limit) : dropped limit queue = [] := by
  rw [dropped, Nat.sub_eq_zero_of_le room, List.take_zero]

theorem push_room (room : queue.length < limit) : push limit queue item = queue ++ [item] := by
  rw [push, Nat.sub_eq_zero_of_le room, List.drop_zero]

theorem dropped_full {oldest : α} (full : (oldest :: queue).length = limit) :
    dropped limit (oldest :: queue) = [oldest] := by
  rw [dropped, ← full, Nat.add_sub_cancel_left, List.take_succ_cons, List.take_zero]

theorem push_full {oldest : α} (full : (oldest :: queue).length = limit) :
    push limit (oldest :: queue) item = queue ++ [item] := by
  rw [push, ← full, Nat.add_sub_cancel_left]
  rfl

theorem length_push_le (bounded : queue.length ≤ limit) : (push limit queue item).length ≤ limit := by
  simp only [push, List.length_drop, List.length_append, List.length_singleton]
  omega

theorem dropped_subset {old : α} (member : old ∈ dropped limit queue) : old ∈ queue :=
  List.mem_of_mem_take member

theorem forall_push (holds : α → Prop) (new : holds item) (old : ∀ member ∈ queue, holds member) :
    ∀ member ∈ push limit queue item, holds member := by
  intro member inside
  rcases List.mem_append.mp (List.mem_of_mem_drop inside) with inside | inside
  · exact old member inside
  · rw [List.mem_singleton.mp inside]
    exact new

theorem mem_push_self (positive : 0 < limit) : item ∈ push limit queue item := by
  rw [push, List.drop_append_of_le_length (by omega)]
  exact List.mem_append_right _ (List.mem_singleton_self item)

theorem mem_push {member : α} (positive : 0 < limit) (inside : member ∈ queue)
    (kept : member ∉ dropped limit queue) : member ∈ push limit queue item := by
  rw [← List.take_append_drop (queue.length + 1 - limit) queue, List.mem_append] at inside
  rw [push, List.drop_append_of_le_length (by omega)]
  exact List.mem_append_left _ (inside.resolve_left kept)

theorem nodup_push (distinct : queue.Nodup) (new : item ∉ queue) : (push limit queue item).Nodup := by
  refine List.Nodup.sublist (List.drop_sublist _ _) ?_
  rw [List.nodup_append]
  refine ⟨distinct, List.nodup_singleton item, fun left inside right same => ?_⟩
  rw [List.mem_singleton.mp same]
  exact fun equal => new (equal ▸ inside)

theorem not_mem_push {old : α} (positive : 0 < limit) (distinct : queue.Nodup) (new : item ∉ queue)
    (taken : old ∈ dropped limit queue) : old ∉ push limit queue item := by
  intro inside
  have whole : queue.take (queue.length + 1 - limit) ++ queue.drop (queue.length + 1 - limit) =
      queue := List.take_append_drop _ _
  rw [push, List.drop_append_of_le_length (by omega), List.mem_append] at inside
  rcases inside with inside | inside
  · rw [← whole, List.nodup_append] at distinct
    exact distinct.2.2 old taken old inside rfl
  · rw [← List.mem_singleton.mp inside] at new
    exact new (dropped_subset taken)

end Push

section Run

variable {limit : Nat} {queue items : List α}

@[simp] theorem pushAll_nil : pushAll limit queue [] = queue := rfl

theorem pushAll_concat (item : α) :
    pushAll limit queue (items ++ [item]) = push limit (pushAll limit queue items) item := by
  rw [pushAll, List.foldl_append]
  rfl

theorem pushAll_eq (bounded : queue.length ≤ limit) :
    pushAll limit queue items = (queue ++ items).drop (queue.length + items.length - limit) := by
  induction items using List.reverseRecOn with
  | nil => simp [Nat.sub_eq_zero_of_le bounded]
  | append_singleton items item ih =>
      rw [pushAll_concat, ih, push, ← List.append_assoc]
      have inside : queue.length + items.length - limit ≤ (queue ++ items).length := by
        rw [List.length_append]
        omega
      rw [← List.drop_append_of_le_length inside, List.drop_drop]
      congr 1
      simp only [List.length_drop, List.length_append, List.length_singleton]
      omega

theorem length_lt_of_mem {old : α} (bounded : queue.length ≤ limit) (new : old ∉ items)
    (inside : old ∈ pushAll limit queue items) : items.length < limit := by
  by_contra long
  apply new
  rw [pushAll_eq bounded, List.drop_append, List.mem_append] at inside
  rcases inside with inside | inside
  · rw [List.drop_of_length_le (by omega)] at inside
    cases inside
  · exact List.mem_of_mem_drop inside

theorem dropped_pushAll (bounded : queue.length ≤ limit) (short : items.length < limit) :
    dropped limit (pushAll limit queue items) =
      (queue.drop (items.length - (limit - queue.length))).take
        (items.length + 1 - (limit - queue.length) - (items.length - (limit - queue.length))) := by
  have count : queue.length + items.length - limit = items.length - (limit - queue.length) := by
    omega
  rw [dropped, pushAll_eq bounded, List.drop_append_of_le_length (by omega), count,
    List.take_append_of_le_length]
  · congr 1
    simp only [List.length_append, List.length_drop]
    omega
  · simp only [List.length_append, List.length_drop]
    omega

theorem dropped_pushAll_subset {old : α} (bounded : queue.length ≤ limit)
    (short : items.length < limit) (taken : old ∈ dropped limit (pushAll limit queue items)) :
    old ∈ queue := by
  rw [dropped_pushAll bounded short] at taken
  exact List.mem_of_mem_drop (List.mem_of_mem_take taken)

theorem zip_concat {β : Type} {frames : List β} {frame : β} (inside : frames.length < queue.length) :
    (frames ++ [frame]).zip queue = frames.zip queue ++ [(frame, queue[frames.length])] := by
  induction frames generalizing queue with
  | nil =>
      cases queue with
      | nil => cases inside
      | cons first rest => rfl
  | cons first frames ih =>
      cases queue with
      | nil => cases inside
      | cons second queue =>
          have shorter : frames.length < queue.length := Nat.lt_of_succ_lt_succ inside
          simp [ih shorter]

theorem spares_nil : Spares limit queue [] := by
  simp [Spares]

theorem Spares.of_append {front back : List (List α)}
    (spares : Spares limit queue (front ++ back)) : Spares limit queue front := by
  intro release member
  apply spares release
  obtain ⟨slot, found⟩ := List.mem_iff_getElem?.mp member
  obtain ⟨frame, item⟩ := List.getElem?_zip_eq_some.mp found
  rw [List.mem_iff_getElem?]
  refine ⟨slot, List.getElem?_zip_eq_some.mpr ⟨?_, item⟩⟩
  rw [List.getElem?_drop] at frame ⊢
  obtain ⟨bound, _⟩ := List.getElem?_eq_some_iff.mp frame
  rw [List.getElem?_append_left bound]
  exact frame

theorem spares_concat {frames : List (List α)} {frame : List α} (bounded : queue.length ≤ limit)
    (short : items.length < limit) (count : items.length = frames.length) :
    Spares limit queue (frames ++ [frame]) ↔ Spares limit queue frames ∧
      ∀ old ∈ dropped limit (pushAll limit queue items), old ∉ frame := by
  rw [dropped_pushAll bounded short, count]
  rcases Nat.lt_or_ge frames.length (limit - queue.length) with room | full
  · have none : frames.length + 1 - (limit - queue.length) = 0 := by omega
    have before : frames.drop (limit - queue.length) = [] := List.drop_eq_nil_of_le (by omega)
    have after : (frames ++ [frame]).drop (limit - queue.length) = [] := by
      rw [List.drop_eq_nil_iff, List.length_append, List.length_singleton]
      exact room
    simp [Spares, before, after, none]
  · have one : frames.length + 1 - (limit - queue.length) -
        (frames.length - (limit - queue.length)) = 1 := by omega
    have inside : frames.length - (limit - queue.length) < queue.length := by omega
    have after : (frames ++ [frame]).drop (limit - queue.length) =
        frames.drop (limit - queue.length) ++ [frame] := List.drop_append_of_le_length full
    have length : (frames.drop (limit - queue.length)).length =
        frames.length - (limit - queue.length) := List.length_drop
    rw [← length] at inside
    rw [Spares, Spares, after, one, ← length, List.drop_eq_getElem_cons inside, zip_concat inside,
      List.take_succ_cons, List.take_zero]
    simp [or_imp, forall_and]

end Run

end Fifo
