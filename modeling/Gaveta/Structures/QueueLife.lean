import Gaveta.Structures.PooledArena
import Gaveta.Structures.Queue

/-! What a queue takes from the pool, and `clear_gq`. -/

namespace Gaveta

namespace Arena

def popAll (gq : Option Nat) : Nat → Arena → Option Arena
  | 0, _ => none
  | fuel + 1, arena => do
      if ← arena.isGqEmpty gq then some arena
      else
        let (arena, _, _) ← arena.popGq gq false
        popAll gq fuel arena

def clearGq (arena : Arena) (gq : Option Nat) : Option (Arena × Bool) :=
  match gq with
  | none => some (arena, false)
  | some helper => do
      let arena ← popAll gq (arena.trace.length + 1) arena
      some (arena.gDealloc helper, true)

end Arena

/-- The runs of a queue in which the pool has a free page for each page that is asked for; without
pushes of `NULL`, which fail and lose an entry. -/
inductive QueueLife (start : Arena) (dataSize gq : Nat) : Arena → List (List UInt8) → Prop
  | init {arena : Arena} (room : numPages queueNodeSize ≤ start.memory.freePageNum)
      (made : start.initGq dataSize = some (arena, gq)) : QueueLife start dataSize gq arena []
  | push {arena after : Arena} {values : List (List UInt8)} {data : Nat → UInt8} {ok : Bool}
      (before : QueueLife start dataSize gq arena values)
      (room : numPages queueNodeSize + numPages dataSize ≤ arena.memory.freePageNum)
      (pushed : arena.pushGq (some gq) (some data) = some (after, ok)) :
      QueueLife start dataSize gq after (values ++ [copied dataSize data])
  | pop {arena after : Arena} {values : List (List UInt8)} {saveTo ok : Bool}
      {saved : Option (List UInt8)} (before : QueueLife start dataSize gq arena values)
      (popped : arena.popGq (some gq) saveTo = some (after, ok, saved)) :
      QueueLife start dataSize gq after values.tail

def queueBlocks (gq : Nat) (entries : List QueueEntry) : List Nat :=
  gq :: entries.flatMap fun entry => [entry.node, entry.data]

structure OwnedQueue (start arena : Arena) (gq dataSize : Nat) (entries : List QueueEntry) :
    Prop where
  holds : HoldsQueue arena gq dataSize entries
  owns : Arena.Owns start arena (queueBlocks gq entries)

namespace OwnedQueue

open Arena

variable {start arena after : Arena} {gq dataSize : Nat} {entries : List QueueEntry}
  {entry : QueueEntry}

theorem init (pooled : start.Pooled) (room : numPages queueNodeSize ≤ start.memory.freePageNum)
    (made : start.initGq dataSize = some (arena, gq)) : OwnedQueue start arena gq dataSize [] := by
  refine ⟨(initGq_spec made).2, ?_⟩
  rw [initGq] at made
  split_ifs at made with zero
  simp only [createGenericQueueEntry, Option.bind_eq_bind, Option.bind_eq_some_iff, Prod.exists,
    Option.some.injEq, Prod.mk.injEq] at made
  obtain ⟨first, address, ⟨second, same, allocated, rfl, rfl⟩, sentinel, loaded, rfl, rfl⟩ := made
  exact ((((Owns.refl pooled).gAlloc room allocated).1.store _ _).store _ _)

theorem entry_owns {own : List Nat} {data : Nat → UInt8} {node : Nat} (owns : Owns start arena own)
    (room : numPages queueNodeSize + numPages dataSize ≤ arena.memory.freePageNum)
    (created : arena.createGenericQueueEntry (some data) dataSize = some (after, node)) :
    ∃ copy, Owns start after (copy :: node :: own) := by
  simp only [createGenericQueueEntry, Option.bind_eq_bind, Option.bind_eq_some_iff, Prod.exists,
    Option.some.injEq, Prod.mk.injEq] at created
  obtain ⟨first, address, allocated, second, copy, atCopy, rfl, rfl⟩ := created
  obtain ⟨outer, left⟩ := owns.gAlloc (by omega) allocated
  obtain ⟨inner, _⟩ := outer.gAlloc (by omega) atCopy
  exact ⟨copy, (inner.store _ _).store _ _⟩

theorem push (queue : OwnedQueue start arena gq dataSize entries) {data : Nat → UInt8} {ok : Bool}
    (room : numPages queueNodeSize + numPages dataSize ≤ arena.memory.freePageNum)
    (pushed : arena.pushGq (some gq) (some data) = some (after, ok)) :
    ∃ entry, entry.content = copied dataSize data ∧
      OwnedQueue start after gq dataSize (entries ++ [entry]) := by
  obtain ⟨entry, content, nodeFresh, dataFresh, holds⟩ := queue.holds.push pushed
  refine ⟨entry, content, holds, ?_⟩
  simp only [pushGq, loadQueue_holds queue.holds.sentinel_head, Option.bind_eq_bind,
    Option.bind_some, Option.bind_eq_some_iff, Prod.exists] at pushed
  obtain ⟨middle, node, created, made, _, pushed⟩ := pushed
  obtain ⟨copy, owns⟩ := entry_owns queue.owns room created
  have grown : Owns start after (copy :: node :: queueBlocks gq entries) := by
    split_ifs at pushed with lost
    · cases pushed
      exact owns
    · obtain ⟨_, _, pushed⟩ := Option.bind_eq_some_iff.mp pushed
      obtain ⟨_, _, pushed⟩ := Option.bind_eq_some_iff.mp pushed
      obtain ⟨_, _, pushed⟩ := Option.bind_eq_some_iff.mp pushed
      obtain ⟨_, _, pushed⟩ := Option.bind_eq_some_iff.mp pushed
      cases pushed
      exact (owns.store _ _).store _ _
  have member : entry ∈ entries ++ [entry] := by simp
  obtain ⟨next, tail, atNode⟩ := holds.nodes entry member
  have atData := holds.contents entry member
  have inChain : entry.node ∈ gq :: (entries ++ [entry]).map QueueEntry.node :=
    List.mem_cons_of_mem _ (List.mem_map_of_mem member)
  have pair := queue.owns.perm_pair grown nodeFresh dataFresh atNode.1 atData.1
    (holds.data_ne atData inChain)
  refine grown.perm (pair.trans ?_)
  rw [queueBlocks, queueBlocks, List.flatMap_append]
  exact List.perm_append_comm.trans (by simp)

theorem pop (queue : OwnedQueue start arena gq dataSize (entry :: entries)) (saveTo : Bool) :
    ∃ after, arena.popGq (some gq) saveTo =
        some (after, true, if saveTo then some entry.content else none) ∧
      OwnedQueue start after gq dataSize entries := by
  obtain ⟨after, popped, holds⟩ := queue.holds.pop_first saveTo
  refine ⟨after, popped, holds, ?_⟩
  have first : entry ∈ entry :: entries := List.mem_cons_self
  obtain ⟨next, tail, atNode⟩ := queue.holds.nodes entry first
  simp only [popGq, queue.holds.isGqEmpty_eq, loadQueue_holds queue.holds.sentinel_head,
    loadQueue_holds atNode, List.isEmpty_cons, List.map_cons, List.head?_cons, Option.bind_eq_bind,
    Option.bind_some, Option.bind_eq_some_iff, Bool.false_eq_true, ↓reduceIte] at popped
  obtain ⟨saved, _, result⟩ := popped
  cases result
  have listed : (queueBlocks gq (entry :: entries)).Perm
      (entry.data :: entry.node :: queueBlocks gq entries) := by
    rw [queueBlocks, queueBlocks, List.flatMap_cons]
    exact (@List.perm_middle _ gq [entry.node, entry.data] _).symm.trans (.swap ..)
  exact (((queue.owns.store _ _).perm listed).gDealloc).gDealloc

theorem popAll_spec {fuel : Nat} (queue : OwnedQueue start arena gq dataSize entries)
    (enough : entries.length < fuel) :
    ∃ after, popAll (some gq) fuel arena = some after ∧ OwnedQueue start after gq dataSize [] := by
  induction entries generalizing arena fuel with
  | nil =>
      obtain ⟨fuel, rfl⟩ := Nat.exists_eq_add_one_of_ne_zero (Nat.ne_of_gt enough)
      refine ⟨arena, ?_, queue⟩
      simp only [popAll, queue.holds.isGqEmpty_eq, List.isEmpty_nil, Option.bind_eq_bind,
        Option.bind_some, ↓reduceIte]
  | cons entry entries ih =>
      obtain ⟨fuel, rfl⟩ := Nat.exists_eq_add_one_of_ne_zero
        (Nat.ne_of_gt (Nat.zero_lt_of_lt enough))
      obtain ⟨middle, popped, rest⟩ := queue.pop false
      obtain ⟨after, emptied, last⟩ := ih rest (Nat.lt_of_succ_lt_succ enough)
      refine ⟨after, ?_, last⟩
      simp only [popAll, queue.holds.isGqEmpty_eq, popped, emptied, List.isEmpty_cons,
        Option.bind_eq_bind, Option.bind_some, Bool.false_eq_true, ↓reduceIte]

theorem clear (queue : OwnedQueue start arena gq dataSize entries) :
    ∃ final, arena.clearGq (some gq) = some (final, true) ∧ Owns start final [] := by
  obtain ⟨after, emptied, last⟩ := queue.popAll_spec queue.holds.length_lt
  refine ⟨after.gDealloc gq, ?_, last.owns.gDealloc⟩
  simp only [clearGq, emptied, Option.bind_eq_bind, Option.bind_some]

end OwnedQueue

theorem QueueLife.owned {start arena : Arena} {dataSize gq : Nat} {values : List (List UInt8)}
    (pooled : start.Pooled) (life : QueueLife start dataSize gq arena values) :
    ∃ entries, OwnedQueue start arena gq dataSize entries ∧
      entries.map QueueEntry.content = values := by
  induction life with
  | init room made => exact ⟨[], .init pooled room made, rfl⟩
  | push before room pushed ih =>
      obtain ⟨entries, queue, rfl⟩ := ih
      obtain ⟨entry, content, after⟩ := queue.push room pushed
      exact ⟨entries ++ [entry], after, by rw [List.map_append, List.map_singleton, content]⟩
  | @pop arena after values saveTo ok saved before popped ih =>
      obtain ⟨entries, queue, rfl⟩ := ih
      cases entries with
      | nil =>
          rw [queue.holds.pop_empty] at popped
          cases popped
          exact ⟨[], queue, rfl⟩
      | cons entry entries =>
          obtain ⟨result, returned, rest⟩ := queue.pop saveTo
          rw [returned] at popped
          cases popped
          exact ⟨entries, rest, rfl⟩

/-- Whatever was pushed and popped before, `clear_gq` ends, everything that the queue has released
since `init_gq` was in use, and the pool is as it was before the queue. -/
theorem queue_life_returns_pages (start arena : Arena) (dataSize gq : Nat)
    (values : List (List UInt8)) (pooled : start.Pooled)
    (life : QueueLife start dataSize gq arena values) :
    ∃ final, arena.clearGq (some gq) = some (final, true) ∧ ReleasesTable start start final := by
  obtain ⟨entries, queue, _⟩ := life.owned pooled
  obtain ⟨final, cleared, owns⟩ := queue.clear
  exact ⟨final, cleared, owns.done pooled⟩

theorem queue_life_returns_pages_two : ∃ arena gq final,
    QueueLife (Arena.unusedArena 40000) 2 gq arena [[8, 8]] ∧
      arena.clearGq (some gq) = some (final, true) ∧ final.memory.freePageNum = 39 := by
  have runs : ((Arena.unusedArena 40000).initGq 2 |>.bind fun made =>
      made.1.pushGq (some made.2) (some fun _ => 7) |>.bind fun first =>
        first.1.pushGq (some made.2) (some fun _ => 8) |>.bind fun second =>
          (second.1.popGq (some made.2) true).bind fun popped =>
            if 4 ≤ made.1.memory.freePageNum ∧ 2 ≤ first.1.memory.freePageNum then some popped
            else none).isSome = true := by
    decide +kernel
  obtain ⟨⟨arena, ok, saved⟩, runs⟩ := Option.isSome_iff_exists.mp runs
  obtain ⟨⟨empty, gq⟩, made, runs⟩ := Option.bind_eq_some_iff.mp runs
  obtain ⟨⟨one, _⟩, first, runs⟩ := Option.bind_eq_some_iff.mp runs
  obtain ⟨⟨two, _⟩, second, runs⟩ := Option.bind_eq_some_iff.mp runs
  obtain ⟨result, popped, checked⟩ := Option.bind_eq_some_iff.mp runs
  split_ifs at checked with room
  dsimp only at room
  obtain rfl := Option.some.inj checked
  have node : numPages queueNodeSize = 1 := by decide
  have data : numPages 2 = 1 := by decide
  have whole := Arena.pooled_unusedArena (by decide : 40000 < u32Range)
  have life := (((QueueLife.init (by decide) made).push (by omega) first).push
    (by omega) second).pop popped
  obtain ⟨final, cleared, released⟩ := queue_life_returns_pages _ _ _ _ _ whole life
  exact ⟨arena, gq, final, life, cleared, released.freePageNum.trans (by decide)⟩

end Gaveta
