import Gaveta.Memory.SecondChance

/-! The counter of free pages while `g_allocate` replaces pages. -/

namespace Gaveta

/-- The loop of replacements frees one page in each completed iteration, and counts it.  A request
for more pages than there are is refused with the page table as it was. -/
structure CounterHonest (m : Memory) (bytes : Nat) : Prop where
  inside : ∀ k < numPages bytes - m.freePageNum, (replacePages k m).2 = true →
    ∃ seen, (replacePages k m).1.visits = some seen ∧ ∀ visit ∈ seen, visit.page < m.len
  frees : ∀ k < numPages bytes - m.freePageNum, (replacePages (k + 1) m).2 = true →
    ∃ page, page ∉ freePages (replacePages k m).1 ∧
      freePages (replacePages (k + 1) m).1 = insert page (freePages (replacePages k m).1)
  count : ∀ k ≤ numPages bytes - m.freePageNum, (replacePages k m).2 = true →
    (replacePages k m).1.freePageNum = (freePages (replacePages k m).1).card ∧
      (replacePages k m).1.freePageNum ≤ m.len
  enough : (replacePages (numPages bytes - m.freePageNum) m).2 = true →
    numPages bytes ≤ (freePages (replacePages (numPages bytes - m.freePageNum) m).1).card
  refused : m.len < numPages bytes → ∃ after, gAllocate m bytes = some (after, none) ∧
    after.pages = m.pages ∧ after.freePageNum = m.freePageNum

/-- The request is for at most all pages, and no sweep before one that gives up hands over a page
that is free or that an earlier one has handed over. -/
structure VictimsInUse (m : Memory) (bytes : Nat) : Prop where
  hand : m.hand < m.len
  fits : numPages bytes ≤ m.len
  taken : ∀ sweep < numPages bytes - m.freePageNum,
    (∀ earlier ≤ sweep, ¬m.clock.GivesUp earlier) →
      (m.pages (m.clock.victim sweep)).free = false ∧
        ∀ earlier < sweep, m.clock.victim earlier ≠ m.clock.victim sweep

section Loop

variable {m : Memory}

theorem sweep_used {len hand fuel curr p : Nat} {pages : Nat → Page}
    (set : ((sweep len hand fuel curr pages).1 p).used = true) : (pages p).used = true := by
  induction fuel generalizing curr pages with
  | zero => exact set
  | succ fuel ih =>
      have cleared : (Function.update pages curr { pages curr with used := false } p).used = true →
          (pages p).used = true := by
        by_cases own : p = curr
        · simp [own]
        · simp [own]
      rw [sweep] at set
      dsimp only at set
      split_ifs at set with unused ends
      · exact set
      · exact cleared set
      · exact cleared (ih set)

theorem secondChance_none_used (returned : (secondChance m).2 = none) :
    (m.pages m.hand).used = true ∧ ((secondChance m).1.pages m.hand).used = false := by
  have used : ¬(m.pages m.hand).used = false := by
    intro unused
    simp [secondChance, semWait, sweep, unused] at returned
  refine ⟨by simpa using used, ?_⟩
  rw [← Bool.not_eq_true]
  intro set
  have swept : ((sweep m.len m.hand (m.len + 2) m.hand m.pages).1 m.hand).used = true := set
  rw [sweep, if_neg used] at swept
  dsimp only at swept
  split_ifs at swept with ends
  · simp at swept
  · have start := sweep_used swept
    simp at start

theorem replacePages_handsOver (valid : m.clock.Valid) {k : Nat}
    (done : (replacePages k m).2 = true) : HandsOver m k (replacePages k m).1 := by
  have replaced := replacePages_spec valid k
  generalize replacePages k m = result at replaced done ⊢
  cases replaced with
  | done _ frees => exact frees
  | gaveUp _ _ _ => cases done

theorem replacePages_mono (valid : m.clock.Valid) {k count : Nat} (few : k ≤ count)
    (done : (replacePages count m).2 = true) : (replacePages k m).2 = true := by
  rw [replacePages_done_iff valid] at done ⊢
  exact fun sweep less => done sweep (by omega)

theorem mem_freePages_replaced (valid : m.clock.Valid) {k : Nat}
    (done : (replacePages k m).2 = true) (p : Nat) :
    p ∈ freePages (replacePages k m).1 ↔
      p < m.len ∧ ((m.pages p).free = true ∨ ∃ sweep < k, p = m.clock.victim sweep) := by
  have frees := replacePages_handsOver valid done
  rw [freePages, Finset.mem_filter, Finset.mem_range, frees.len, frees.free, Clock.handedOver_iff]

theorem freePages_replaced_succ (valid : m.clock.Valid) {k : Nat}
    (done : (replacePages (k + 1) m).2 = true) :
    freePages (replacePages (k + 1) m).1 =
      insert (m.clock.victim k) (freePages (replacePages k m).1) := by
  have before := replacePages_mono valid (Nat.le_succ k) done
  have inside : m.clock.victim k < m.len := Clock.victim_lt valid k
  ext p
  rw [Finset.mem_insert, mem_freePages_replaced valid done, mem_freePages_replaced valid before]
  constructor
  · rintro ⟨below, free | ⟨sweep, less, rfl⟩⟩
    · exact Or.inr ⟨below, Or.inl free⟩
    · rcases Nat.lt_or_eq_of_le (Nat.le_of_lt_succ less) with earlier | rfl
      · exact Or.inr ⟨below, Or.inr ⟨sweep, earlier, rfl⟩⟩
      · exact Or.inl rfl
  · rintro (rfl | ⟨below, free | ⟨sweep, less, rfl⟩⟩)
    · exact ⟨inside, Or.inr ⟨k, by omega, rfl⟩⟩
    · exact ⟨below, Or.inl free⟩
    · exact ⟨below, Or.inr ⟨sweep, by omega, rfl⟩⟩

theorem victim_mem_iff (valid : m.clock.Valid) {k : Nat} (done : (replacePages k m).2 = true) :
    m.clock.victim k ∉ freePages (replacePages k m).1 ↔
      (m.pages (m.clock.victim k)).free = false ∧
        ∀ earlier < k, m.clock.victim earlier ≠ m.clock.victim k := by
  have inside : m.clock.victim k < m.len := Clock.victim_lt valid k
  rw [mem_freePages_replaced valid done]
  simp only [inside, true_and, not_or, Bool.not_eq_true, not_exists, not_and]
  exact and_congr_right fun _ => forall₂_congr fun _ _ => ne_comm

end Loop

variable {m : Memory} {bytes : Nat}

theorem CounterHonest.fits (honest : CounterHonest m bytes) (valid : m.clock.Valid)
    (asked : bytes ≠ 0) (below : bytes < m.size) (exceeds : m.freePageNum < numPages bytes) :
    numPages bytes ≤ m.len := by
  by_contra large
  obtain ⟨after, returned, pages, counted⟩ := honest.refused (by omega)
  rw [gAllocate_asked asked below] at returned
  cases done : (replacePages (numPages bytes - m.freePageNum) m).2 with
  | true =>
      have enough := honest.enough done
      have frees := replacePages_handsOver valid done
      have most := Accounted.card_le (replacePages (numPages bytes - m.freePageNum) m).1
      rw [frees.len] at most
      omega
  | false =>
      simp only [done, ↓reduceIte, Option.some.injEq, Prod.mk.injEq, and_true] at returned
      subst returned
      obtain ⟨missing, more⟩ : ∃ k, numPages bytes - m.freePageNum = k + 1 :=
        ⟨numPages bytes - m.freePageNum - 1, by omega⟩
      rw [more] at pages counted done
      have replaced := replacePages_spec valid (missing + 1)
      cases first : (secondChance m).2 with
      | none =>
          obtain ⟨used, cleared⟩ := secondChance_none_used first
          have same := congrArg Page.used (congrFun pages m.hand)
          rw [replacePages] at same
          simp only [first, semPost] at same
          rw [cleared, used] at same
          cases same
      | some page =>
          have runs : ¬m.clock.GivesUp 0 := by
            have chance := secondChance_spec valid
            generalize secondChance m = result at chance first
            cases chance with
            | found _ runs _ _ => exact runs
            | gaveUp _ _ => cases first
          generalize replacePages (missing + 1) m = result at replaced done counted
          cases replaced with
          | done _ _ => cases done
          | @gaveUp after sweeps few gives frees =>
              have zero : sweeps = 0 := by
                have added := frees.count
                dsimp only at counted
                omega
              exact runs (zero ▸ gives)

theorem CounterHonest.victimsInUse (honest : CounterHonest m bytes) (asked : bytes ≠ 0)
    (below : bytes < m.size) (exceeds : m.freePageNum < numPages bytes) : VictimsInUse m bytes := by
  obtain ⟨seen, seeing, inside⟩ := honest.inside 0 (by omega) rfl
  obtain ⟨used, rest, rfl⟩ := visits_head seeing
  have hand : m.hand < m.len := inside _ List.mem_cons_self
  have valid : m.clock.Valid := ⟨Nat.one_le_of_lt hand, hand⟩
  refine ⟨hand, honest.fits valid asked below exceeds, fun sweep few runs => ?_⟩
  have done : (replacePages (sweep + 1) m).2 = true :=
    (replacePages_done_iff valid _).mpr fun earlier less => runs earlier (by omega)
  have before := replacePages_mono valid (Nat.le_succ sweep) done
  obtain ⟨page, outside, grown⟩ := honest.frees sweep few done
  rw [← victim_mem_iff valid before]
  intro already
  rw [freePages_replaced_succ valid done, Finset.insert_eq_of_mem already] at grown
  exact outside (grown ▸ Finset.mem_insert_self ..)

namespace VictimsInUse

theorem valid (inUse : VictimsInUse m bytes) : m.clock.Valid :=
  ⟨Nat.one_le_of_lt inUse.hand, inUse.hand⟩

theorem victim_notMem (inUse : VictimsInUse m bytes) {k : Nat}
    (few : k < numPages bytes - m.freePageNum) (done : (replacePages (k + 1) m).2 = true) :
    m.clock.victim k ∉ freePages (replacePages k m).1 := by
  have valid := inUse.valid
  rw [victim_mem_iff valid (replacePages_mono valid (Nat.le_succ k) done)]
  refine inUse.taken k few fun earlier less => ?_
  exact (replacePages_done_iff valid _).mp done earlier (by omega)

theorem card_replaced (inUse : VictimsInUse m bytes)
    (counted : m.freePageNum = (freePages m).card) {k : Nat}
    (few : k ≤ numPages bytes - m.freePageNum) (done : (replacePages k m).2 = true) :
    (freePages (replacePages k m).1).card = m.freePageNum + k := by
  induction k with
  | zero => exact counted.symm
  | succ k ih =>
      have before := replacePages_mono inUse.valid (Nat.le_succ k) done
      rw [freePages_replaced_succ inUse.valid done,
        Finset.card_insert_of_notMem (inUse.victim_notMem few done), ih (by omega) before]
      rfl

theorem visits_inside (inUse : VictimsInUse m bytes) {k : Nat}
    (done : (replacePages k m).2 = true) : ∃ seen, (replacePages k m).1.visits = some seen ∧
      ∀ visit ∈ seen, visit.page < m.len := by
  have handed := replacePages_handsOver inUse.valid done
  have start : (replacePages k m).1.hand < (replacePages k m).1.len := handed.valid.hand
  obtain ⟨seen, seeing⟩ := Memory.visits_isSome (m := (replacePages k m).1) (by omega)
  rw [← handed.len]
  refine ⟨seen, seeing, visits_all (P := fun page => page < _) seeing start fun page _ => ?_⟩
  exact Nat.mod_lt _ (Nat.zero_lt_of_lt start)

theorem honest (inUse : VictimsInUse m bytes) (counted : m.freePageNum = (freePages m).card) :
    CounterHonest m bytes where
  inside _ _ done := inUse.visits_inside done
  frees k few done :=
    ⟨_, inUse.victim_notMem few done, freePages_replaced_succ inUse.valid done⟩
  count k few done := by
    have handed := replacePages_handsOver inUse.valid done
    have most := Accounted.card_le (replacePages k m).1
    have size := inUse.card_replaced counted few done
    have number := handed.count
    rw [handed.len] at most
    exact ⟨by omega, by omega⟩
  enough done := by
    rw [inUse.card_replaced counted le_rfl done]
    omega
  refused large := absurd inUse.fits (by omega)

end VictimsInUse

/-- The counter is right after every iteration exactly for requests whose victims are in use. -/
theorem counterHonest_iff (m : Memory) (bytes : Nat)
    (counted : m.freePageNum = (freePages m).card) (asked : bytes ≠ 0) (below : bytes < m.size)
    (exceeds : m.freePageNum < numPages bytes) :
    CounterHonest m bytes ↔ VictimsInUse m bytes := by
  constructor
  · intro honest
    exact honest.victimsInUse asked below exceeds
  · intro inUse
    exact inUse.honest counted

theorem fullHeap_counted : fullHeap.memory.freePageNum = (freePages fullHeap.memory).card := by
  decide

theorem counterHonest_iff_full :
    CounterHonest fullHeap.memory 2000 ↔ VictimsInUse fullHeap.memory 2000 :=
  counterHonest_iff fullHeap.memory 2000 fullHeap_counted (by decide) (by decide) (by decide)

def partlyFull : Memory :=
  ((gAllocate (initMemory 0 (fun _ => 0) 16385) 14328).map Prod.fst).getD
    (initMemory 0 (fun _ => 0) 16385)

/-- The sweep rests at the first free page and hands over the second, which is free already. -/
theorem counter_counts_free_page :
    partlyFull.freePageNum = (freePages partlyFull).card ∧
      partlyFull.freePageNum < numPages 2500 ∧ ¬CounterHonest partlyFull 2500 := by
  refine ⟨by decide, by decide, fun honest => ?_⟩
  have counted := (honest.count 1 (by decide) (by decide)).1
  exact absurd counted (by decide)

end Gaveta
