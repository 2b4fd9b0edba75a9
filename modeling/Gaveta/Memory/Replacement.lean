import Gaveta.Library.Clock
import Gaveta.Memory.Heap

/-! Which pages `g_allocate` takes when its request exceeds the counter of free pages. -/

namespace Gaveta

open Spans

def Memory.clock (m : Memory) : Clock :=
  { len := m.len, hand := m.hand, used := fun p => (m.pages p).used }

def Passed (clock : Clock) (base : Nat → Page) (count : Nat) (pages : Nat → Page) : Prop :=
  ∀ p, (pages p).free = (base p).free ∧
    ((pages p).used = true ↔ (base p).used = true ∧ ∀ t < count, clock.page t ≠ p)

inductive Swept (clock : Clock) (base : Nat → Page) : (Nat → Page) × Nat × Bool → Prop
  | found {stop : Nat} {pages : Nat → Page} (first : clock.First stop)
      (early : clock.hand ≠ 0 → stop + 1 < clock.len) (passed : Passed clock base stop pages) :
      Swept clock base (pages, clock.page (stop + 1), true)
  | gaveUp {pages : Nat → Page} (hand : clock.hand ≠ 0)
      (quiet : ∀ d < clock.len - 1, ¬clock.Rests d)
      (passed : Passed clock base (clock.len - 1) pages) :
      Swept clock base (pages, clock.hand, false)

section Sweep

variable {base : Nat → Page}

theorem passed_rests {clock : Clock} (valid : clock.Valid)
    (same : ∀ p, clock.used p = (base p).used) {t : Nat} {pages : Nat → Page}
    (passed : Passed clock base t pages) (bound : t ≤ clock.len) :
    (pages (clock.page t)).used = false ↔ clock.Rests t := by
  have one := valid.one
  rw [← Bool.not_eq_true, (passed _).2, Clock.Rests, ← Bool.not_eq_true, same]
  rcases Nat.lt_or_eq_of_le bound with less | rfl
  · have unpassed : ∀ s < t, clock.page s ≠ clock.page t := fun s earlier equal => by
      have index := Clock.page_injective (by omega) less equal
      omega
    rw [and_iff_left unpassed]
    simp [Nat.not_le.mpr less]
  · refine iff_of_true (fun both => ?_) (Or.inl le_rfl)
    exact both.2 0 (by omega) (Clock.page_add_len clock 0).symm

theorem sweep_spec {clock : Clock} (valid : clock.Valid)
    (same : ∀ p, clock.used p = (base p).used) {fuel t : Nat} {pages : Nat → Page}
    (enough : clock.len < t + fuel) (bound : t ≤ clock.len)
    (passed : Passed clock base t pages) (before : ∀ s < t, ¬clock.Rests s)
    (last : clock.hand ≠ 0 → t + 1 < clock.len) :
    Swept clock base (sweep clock.len clock.hand fuel (clock.page t) pages) := by
  have one := valid.one
  induction fuel generalizing t pages with
  | zero => omega
  | succ fuel ih =>
      have next : (clock.page t + 1) % clock.len = clock.page (t + 1) := by
        rw [Clock.page, Clock.page, Nat.mod_add_mod, Nat.add_assoc]
      rw [sweep, next]
      by_cases rests : clock.Rests t
      · rw [if_pos ((passed_rests valid same passed bound).mpr rests)]
        exact .found ⟨rests, before⟩ last passed
      · rw [if_neg fun unused => rests ((passed_rests valid same passed bound).mp unused)]
        have quiet : ∀ s < t + 1, ¬clock.Rests s := by
          intro s less
          rcases Nat.lt_or_eq_of_le (Nat.le_of_lt_succ less) with earlier | rfl
          · exact before s earlier
          · exact rests
        have cleared : Passed clock base (t + 1) (Function.update pages (clock.page t)
            { pages (clock.page t) with used := false }) := by
          intro p
          by_cases own : p = clock.page t
          · subst own
            simp only [Function.update_self, (passed _).1, Bool.false_eq_true, false_iff, not_and,
              not_forall, true_and]
            exact fun _ => ⟨t, by omega, fun differ => differ rfl⟩
          · rw [Function.update_of_ne own]
            refine ⟨(passed p).1, (passed p).2.trans (and_congr_right fun _ => ?_)⟩
            constructor
            · intro unpassed s less
              rcases Nat.lt_or_eq_of_le (Nat.le_of_lt_succ less) with earlier | rfl
              · exact unpassed s earlier
              · exact Ne.symm own
            · exact fun unpassed s less => unpassed s (by omega)
        have short : t < clock.len := by
          by_contra far
          exact rests (Or.inl (by omega))
        dsimp only
        by_cases ends : clock.page (t + 1) + 1 = clock.hand
        · have hand : clock.hand ≠ 0 := by omega
          have final := Clock.page_last valid hand
          have round : t + 1 = clock.len - 1 :=
            Clock.page_injective (last hand) (by omega) (by omega)
          have back : (clock.page (t + 1) + 1) % clock.len = clock.hand := by
            rw [ends, Nat.mod_eq_of_lt valid.hand]
          rw [if_pos ends, back]
          rw [round] at quiet cleared
          exact .gaveUp hand quiet cleared
        · rw [if_neg ends]
          refine ih (by omega) (by omega) cleared quiet fun hand => ?_
          have final := Clock.page_last valid hand
          have ahead := last hand
          by_contra beyond
          have round : t + 1 = clock.len - 1 := by omega
          rw [round] at ends
          omega

end Sweep

structure HandsOver (m : Memory) (sweeps : Nat) (after : Memory) : Prop where
  size : after.size = m.size
  len : after.len = m.len
  pool : after.pool = m.pool
  valid : after.clock.Valid
  count : after.freePageNum = m.freePageNum + sweeps
  free : ∀ p, (after.pages p).free = true ↔
    (m.pages p).free = true ∨ m.clock.HandedOver sweeps p

theorem HandsOver.none {m after : Memory} (size : after.size = m.size) (len : after.len = m.len)
    (pool : after.pool = m.pool) (valid : after.clock.Valid)
    (count : after.freePageNum = m.freePageNum)
    (free : ∀ p, (after.pages p).free = (m.pages p).free) : HandsOver m 0 after :=
  ⟨size, len, pool, valid, count, fun p => by
    rw [free p, or_iff_left (Clock.not_handedOver_zero p)]⟩

inductive Chance (m : Memory) : Memory × Option Nat → Prop
  | found {after : Memory} {stop : Nat} (first : m.clock.First stop)
      (runs : ¬m.clock.GivesUp 0) (passes : m.clock.Passes stop after.clock)
      (frees : HandsOver m 0 after) : Chance m (after, some (m.clock.page (stop + 1)))
  | gaveUp {after : Memory} (gives : m.clock.GivesUp 0) (frees : HandsOver m 0 after) :
      Chance m (after, none)

theorem secondChance_spec {m : Memory} (valid : m.clock.Valid) : Chance m (secondChance m) := by
  have swept : Swept m.clock m.pages
      (sweep m.clock.len m.clock.hand (m.len + 2) (m.clock.page 0) m.pages) := by
    refine sweep_spec valid (fun p => rfl) ?_ (Nat.zero_le _) (fun p => ⟨rfl, by simp⟩) (by simp)
      fun hand => ?_
    · simp [Memory.clock]
    · have inside := valid.hand
      omega
  rw [Clock.page_zero valid] at swept
  have same : secondChance m =
      let swept := sweep m.clock.len m.clock.hand (m.len + 2) m.clock.hand m.pages
      (semPost { semWait m with pages := swept.1, hand := swept.2.1 },
        if swept.2.2 then some swept.2.1 else none) := rfl
  rw [same]
  generalize sweep m.clock.len m.clock.hand (m.len + 2) m.clock.hand m.pages = result at swept ⊢
  cases swept with
  | @found stop pages first early passed =>
      have passes : m.clock.Passes stop
          (semPost { semWait m with pages := pages, hand := m.clock.page (stop + 1) }).clock :=
        ⟨rfl, rfl, fun p => (passed p).2⟩
      refine .found first (fun gives => ?_) passes
        (.none rfl rfl rfl (passes.valid valid) rfl fun p => (passed p).1)
      obtain ⟨hand, quiet⟩ := (Clock.givesUp_zero valid).mp gives
      have bound := early hand
      exact quiet stop (by omega) first.rests
  | @gaveUp pages hand quiet passed =>
      exact .gaveUp ((Clock.givesUp_zero valid).mpr ⟨hand, quiet⟩)
        (.none rfl rfl rfl ⟨valid.one, valid.hand⟩ rfl fun p => (passed p).1)

inductive Replaced (m : Memory) (missing : Nat) : Memory × Bool → Prop
  | done {after : Memory} (runs : ∀ sweep < missing, ¬m.clock.GivesUp sweep)
      (frees : HandsOver m missing after) : Replaced m missing (after, true)
  | gaveUp {after : Memory} {sweeps : Nat} (few : sweeps < missing)
      (gives : m.clock.GivesUp sweeps) (frees : HandsOver m sweeps after) :
      Replaced m missing (after, false)

theorem handOver_clock (m : Memory) (page : Nat) :
    (semPost (handOver (semWait m) page)).clock = m.clock := by
  have used : (fun p => (Function.update m.pages page { m.pages page with free := true } p).used) =
      fun p => (m.pages p).used := by
    funext p
    by_cases own : p = page
    · simp [own]
    · simp [own]
  simp only [Memory.clock, semPost, handOver, semWait, used]

theorem HandsOver.step {m middle after : Memory} {stop sweeps : Nat} (valid : m.clock.Valid)
    (first : m.clock.First stop) (passes : m.clock.Passes stop middle.clock)
    (swept : HandsOver m 0 middle)
    (later : HandsOver (semPost (handOver (semWait middle) (m.clock.page (stop + 1)))) sweeps
      after) : HandsOver m (sweeps + 1) after := by
  refine ⟨later.size.trans swept.size, later.len.trans swept.len, later.pool.trans swept.pool,
    later.valid, ?_, fun p => ?_⟩
  · have count := later.count
    have start := swept.count
    simp only [semPost, handOver, semWait] at count
    omega
  · have start := swept.free p
    rw [or_iff_left (Clock.not_handedOver_zero p)] at start
    rw [later.free, handOver_clock, passes.handedOver_succ first valid, ← or_assoc, ← start]
    refine or_congr_left ?_
    simp only [semPost, handOver, semWait]
    by_cases own : p = m.clock.page (stop + 1)
    · simp [own]
    · simp [own]

theorem replacePages_spec {m : Memory} (valid : m.clock.Valid) (missing : Nat) :
    Replaced m missing (replacePages missing m) := by
  induction missing generalizing m with
  | zero => exact .done (by simp) (.none rfl rfl rfl valid rfl fun p => rfl)
  | succ missing ih =>
      have chance := secondChance_spec valid
      rw [replacePages]
      generalize secondChance m = swept at chance ⊢
      cases chance with
      | gaveUp gives frees =>
          exact .gaveUp (by omega) gives
            ⟨frees.size, frees.len, frees.pool, frees.valid, frees.count, frees.free⟩
      | @found middle stop first runs passes frees =>
          have next := handOver_clock middle (m.clock.page (stop + 1))
          have rest := ih (by rw [next]; exact passes.valid valid)
          dsimp only
          generalize replacePages missing
            (semPost (handOver (semWait middle) (m.clock.page (stop + 1)))) = result at rest ⊢
          cases rest with
          | done later handed =>
              refine .done (fun sweep less => ?_) (.step valid first passes frees handed)
              cases sweep with
              | zero => exact runs
              | succ sweep =>
                  rw [passes.givesUp_succ first valid, ← next]
                  exact later sweep (by omega)
          | gaveUp few gives handed =>
              rw [next, ← passes.givesUp_succ first valid] at gives
              exact .gaveUp (by omega) gives (.step valid first passes frees handed)

theorem replacePages_done_iff {m : Memory} (valid : m.clock.Valid) (missing : Nat) :
    (replacePages missing m).2 = true ↔ ∀ sweep < missing, ¬m.clock.GivesUp sweep := by
  have replaced := replacePages_spec valid missing
  generalize replacePages missing m = result at replaced ⊢
  cases replaced with
  | done runs _ => exact iff_of_true rfl runs
  | gaveUp few gives _ => exact iff_of_false (by simp) fun runs => runs _ few gives

/-- A request for which `g_allocate` runs the loop of replacements. -/
structure EntersReplacement (heap : Heap) (bytes : Nat) : Prop where
  asked : bytes ≠ 0
  fits : bytes < heap.memory.size
  exceeds : heap.memory.freePageNum < numPages bytes

/-- A returned block has no page of a live block, and a refused request frees no page. -/
def ReplacementSafe (heap : Heap) (bytes : Nat) : Prop :=
  ∀ after answer, gAllocate heap.memory bytes = some (after, answer) →
    match answer with
    | some address => ∀ block ∈ heap.live, Disjoint (Block.mk address bytes).pages block.pages
    | none => freePages after = freePages heap.memory

/-- If a sweep gives up, the pages handed over before it are free already; otherwise the free pages
and those handed over for the missing ones have no run of `numPages bytes` pages. -/
structure SparesLivePages (heap : Heap) (bytes : Nat) : Prop where
  refused : ∀ sweeps < numPages bytes - heap.memory.freePageNum,
    heap.memory.clock.GivesUp sweeps →
      ∀ p, heap.memory.clock.HandedOver sweeps p → (heap.memory.pages p).free = true
  scattered : (∀ sweep < numPages bytes - heap.memory.freePageNum,
      ¬heap.memory.clock.GivesUp sweep) →
    ∀ i, i + numPages bytes ≤ heap.memory.len → ∃ j, i ≤ j ∧ j < i + numPages bytes ∧
      ¬((heap.memory.pages j).free = true ∨
        heap.memory.clock.HandedOver (numPages bytes - heap.memory.freePageNum) j)

section Request

variable {heap : Heap} {extra bytes : Nat}

theorem gAllocate_replaced (enters : EntersReplacement heap bytes) :
    gAllocate heap.memory bytes =
      let replaced := replacePages (numPages bytes - heap.memory.freePageNum) heap.memory
      if replaced.2 = false then some (replaced.1, none)
      else
        (firstFit replaced.1.pages replaced.1.len (numPages bytes) replaced.1.len 0).map fun i =>
          (semPost (takePages (semWait replaced.1) i (numPages bytes)),
            some (i * pageSize + allocHeaderSize)) :=
  gAllocate_asked enters.asked enters.fits

theorem handedOver_lt {m : Memory} (valid : m.clock.Valid) {sweeps p : Nat}
    (handed : m.clock.HandedOver sweeps p) : p < m.len := by
  obtain ⟨t, _, _, rfl⟩ := handed
  exact Clock.page_lt valid (t + 1)

theorem HandsOver.freePages_eq_iff {m after : Memory} {sweeps : Nat} (valid : m.clock.Valid)
    (frees : HandsOver m sweeps after) :
    freePages after = freePages m ↔
      ∀ p, m.clock.HandedOver sweeps p → (m.pages p).free = true := by
  simp only [Finset.ext_iff, freePages, Finset.mem_filter, Finset.mem_range, frees.len, frees.free]
  constructor
  · intro same p handed
    exact ((same p).mp ⟨handedOver_lt valid handed, Or.inr handed⟩).2
  · intro spared p
    exact and_congr_right fun _ => or_iff_left_of_imp (spared p)

theorem Accounted.run_taken (accounted : Accounted heap extra)
    (enters : EntersReplacement heap bytes) {i : Nat}
    (inside : i + numPages bytes ≤ heap.memory.len) :
    ∃ j, i ≤ j ∧ j < i + numPages bytes ∧ ∃ block ∈ heap.live, j ∈ block.pages := by
  by_contra none
  simp only [not_exists, not_and] at none
  have subset : (Span.mk i (numPages bytes)).points ⊆ freePages heap.memory := by
    intro j member
    simp only [Span.mem_points] at member
    rw [accounted.invariant.freePages_eq]
    simp only [mem_freePoints, List.mem_map, forall_exists_index, and_imp,
      forall_apply_eq_imp_iff₂]
    exact ⟨by omega, none j member.1 member.2⟩
  have card := Finset.card_le_card subset
  have count := accounted.count
  have exceeds := enters.exceeds
  rw [Span.card_points] at card
  dsimp only at card
  omega

theorem Accounted.replacementSafe_iff (accounted : Accounted heap extra)
    (valid : heap.memory.clock.Valid) (enters : EntersReplacement heap bytes) :
    ReplacementSafe heap bytes ↔ SparesLivePages heap bytes := by
  rw [ReplacementSafe, gAllocate_replaced enters]
  have replaced := replacePages_spec valid (numPages bytes - heap.memory.freePageNum)
  generalize replacePages (numPages bytes - heap.memory.freePageNum) heap.memory = result
    at replaced ⊢
  cases replaced with
  | @gaveUp after sweeps few gives frees =>
      have same := frees.freePages_eq_iff valid
      constructor
      · intro safe
        have spared := same.mp (safe after none rfl)
        refine ⟨fun other less again => ?_, fun runs => absurd gives (runs sweeps few)⟩
        rwa [again.unique valid gives]
      · intro spares after' answer returned
        obtain ⟨rfl, rfl⟩ := Prod.mk.inj (Option.some.inj returned)
        exact same.mpr (spares.refused sweeps few gives)
  | @done after runs frees =>
      simp only [Bool.true_eq_false, ↓reduceIte]
      cases search : firstFit after.pages after.len (numPages bytes) after.len 0 with
      | none =>
          refine iff_of_true (fun _ _ returned => by simp at returned) ⟨fun sweeps few gives =>
            absurd gives (runs sweeps few), fun _ i inside => ?_⟩
          rw [← frees.len] at inside
          obtain ⟨j, lower, upper, taken⟩ := firstFit_none search (by omega) (Nat.zero_le i) inside
            (HeapInvariant.count_pos bytes)
          exact ⟨j, lower, upper, by simp [← frees.free, taken]⟩
      | some i =>
          obtain ⟨inside, fits⟩ := firstFit_some search
          rw [frees.len] at inside
          refine iff_of_false (fun safe => ?_) fun spares => ?_
          · obtain ⟨j, lower, upper, block, member, own⟩ := accounted.run_taken enters inside
            have disjoint := safe _ _ rfl block member
            refine Finset.disjoint_left.mp disjoint ?_ own
            simp [Block.pages, Block.span, lower, upper]
          · obtain ⟨j, lower, upper, kept⟩ := spares.scattered runs i inside
            exact kept ((frees.free j).mp (fits j lower upper))

theorem Accounted.spared {after : Heap} (accounted : Accounted heap extra)
    (valid : heap.memory.clock.Valid) (enters : EntersReplacement heap bytes)
    (spares : SparesLivePages heap bytes) (acts : heap.act (.allocate bytes) = some after) :
    (∃ more, Accounted after more) ∧ after.memory.clock.Valid := by
  rw [Heap.act, gAllocate_replaced enters] at acts
  have replaced := replacePages_spec valid (numPages bytes - heap.memory.freePageNum)
  generalize replacePages (numPages bytes - heap.memory.freePageNum) heap.memory = result
    at replaced acts
  cases replaced with
  | @gaveUp memory sweeps few gives frees =>
      obtain rfl := Option.some.inj acts
      have invariant := accounted.invariant
      have spared := spares.refused sweeps few gives
      have free : ∀ p, (memory.pages p).free = true ↔ (heap.memory.pages p).free = true :=
        fun p => (frees.free p).trans (or_iff_left_of_imp (spared p))
      refine ⟨⟨extra + sweeps, ⟨?_, ?_, ?_, invariant.asked, invariant.aligned, ?_, ?_⟩, ?_, ?_⟩,
        frees.valid⟩
      · simpa only [frees.len, frees.size] using invariant.len
      · simpa only [frees.size] using invariant.small
      · simpa only [frees.len] using invariant.packed
      · simpa only [frees.len, free] using invariant.free
      · simpa only [frees.pool] using invariant.header
      · have count := accounted.count
        simp only [(frees.freePages_eq_iff valid).mpr spared, frees.count]
        omega
      · have count := accounted.count
        have fits := enters.fits
        have len := invariant.len
        simp only [numPages, allocHeaderSize, pageSize] at few len
        simp only [frees.len]
        omega
  | @done memory runs frees =>
      simp only [Bool.true_eq_false, ↓reduceIte] at acts
      cases search : firstFit memory.pages memory.len (numPages bytes) memory.len 0 with
      | none => simp [search] at acts
      | some i =>
          obtain ⟨inside, fits⟩ := firstFit_some search
          rw [frees.len] at inside
          obtain ⟨j, lower, upper, kept⟩ := spares.scattered runs i inside
          exact absurd ((frees.free j).mp (fits j lower upper)) kept

end Request

theorem Heap.Served.clock {heap after : Heap} {command : Command} (served : heap.Served command)
    (acts : heap.act command = some after) :
    after.memory.len = heap.memory.len ∧ after.memory.hand = heap.memory.hand := by
  cases command with
  | allocate bytes =>
      rw [Heap.act, gAllocate_served (served.2 bytes rfl)] at acts
      split_ifs at acts
      · obtain rfl := Option.some.inj acts
        exact ⟨rfl, rfl⟩
      · cases search : firstFit heap.memory.pages heap.memory.len (numPages bytes)
            heap.memory.len 0 with
        | none => simp [search] at acts
        | some i =>
            rw [search] at acts
            obtain rfl := Option.some.inj acts
            exact ⟨rfl, rfl⟩
  | deallocate block =>
      obtain rfl := Option.some.inj acts
      exact ⟨rfl, rfl⟩
  | store address value =>
      obtain rfl := Option.some.inj acts
      exact ⟨rfl, rfl⟩

def Heap.Spares (heap : Heap) (command : Command) : Prop :=
  heap.Owns command ∧ ∀ bytes, command = .allocate bytes → EntersReplacement heap bytes →
    SparesLivePages heap bytes

structure Spared (heap : Heap) : Prop where
  accounted : ∃ extra, Accounted heap extra
  valid : heap.memory.clock.Valid

theorem Spared.step {heap after : Heap} {command : Command} (spared : Spared heap)
    (spares : heap.Spares command) (acts : heap.act command = some after) : Spared after := by
  obtain ⟨⟨extra, accounted⟩, valid⟩ := spared
  have served (served : heap.Served command) : Spared after := by
    obtain ⟨len, hand⟩ := served.clock acts
    refine ⟨⟨extra, accounted.step served.1 served.2 acts⟩, ⟨?_, ?_⟩⟩
    · simpa only [Memory.clock, len] using valid.one
    · simpa only [Memory.clock, len, hand] using valid.hand
  cases command with
  | allocate bytes =>
      by_cases enough : numPages bytes ≤ heap.memory.freePageNum
      · exact served (served_allocate spares.1 enough)
      by_cases refused : bytes = 0 ∨ heap.memory.size ≤ bytes
      · rw [Heap.act, gAllocate_refused refused] at acts
        obtain rfl := Option.some.inj acts
        exact ⟨⟨extra, accounted⟩, valid⟩
      rw [not_or, not_le] at refused
      have enters : EntersReplacement heap bytes :=
        ⟨refused.1, refused.2, not_le.mp enough⟩
      obtain ⟨accounted, valid⟩ :=
        accounted.spared valid enters (spares.2 bytes rfl enters) acts
      exact ⟨accounted, valid⟩
  | deallocate block => exact served ⟨spares.1, by simp⟩
  | store address value => exact served ⟨spares.1, by simp⟩

/-- After every run whose requests spare the live pages, a request that enters the replacement is
safe exactly if it spares them too. -/
theorem replacement_safe_iff (hand : Nat) (content : Nat → UInt8) (memSize : Nat)
    (small : memSize < u32Range) (inside : hand < (initMemory hand content memSize).len)
    (heap : Heap) (reached : Heap.Reaches (initMemory hand content memSize) Heap.Spares heap)
    (bytes : Nat) (enters : EntersReplacement heap bytes) :
    ReplacementSafe heap bytes ↔ SparesLivePages heap bytes := by
  have spared : Spared heap := by
    clear enters
    induction reached with
    | start =>
        refine ⟨⟨0, Accounted.start hand content small⟩, ⟨?_, inside⟩⟩
        simp only [Memory.clock, initMemory, defaultMemorySize, pageSize]
        split_ifs <;> omega
    | step before allowed acts ih => exact ih.step allowed acts
  obtain ⟨⟨extra, accounted⟩, valid⟩ := spared
  exact accounted.replacementSafe_iff valid enters

def fullHeap : Heap :=
  let start : Heap := { memory := initMemory 0 (fun _ => 0) 16385, live := [] }
  (start.act (.allocate 16376)).getD start

theorem fullHeap_reached :
    Heap.Reaches (initMemory 0 (fun _ => 0) 16385) Heap.Spares fullHeap := by
  have spares : Heap.Spares { memory := initMemory 0 (fun _ => 0) 16385, live := [] }
      (.allocate 16376) := by
    refine ⟨(by decide : 16376 < u32Range), fun bytes same enters => ?_⟩
    cases same
    exact absurd enters.exceeds (by decide)
  exact .step .start spares rfl

theorem fullHeap_enters : EntersReplacement fullHeap 100 :=
  ⟨by decide, by decide, by decide⟩

theorem replacement_safe_iff_full :
    ReplacementSafe fullHeap 100 ↔ SparesLivePages fullHeap 100 :=
  replacement_safe_iff 0 (fun _ => 0) 16385 (by decide) (by decide) fullHeap fullHeap_reached 100
    fullHeap_enters

/-- In a full pool a request gets a page in the middle of the live block. -/
theorem replacement_takes_live_page :
    Heap.Reaches (initMemory 0 (fun _ => 0) 16385) Heap.Spares fullHeap ∧
      EntersReplacement fullHeap 100 ∧ ¬ReplacementSafe fullHeap 100 := by
  refine ⟨fullHeap_reached, fullHeap_enters, fun safe => ?_⟩
  have returned : (gAllocate fullHeap.memory 100).map Prod.snd = some (some 1032) := by decide
  obtain ⟨⟨after, answer⟩, result, same⟩ := Option.map_eq_some_iff.mp returned
  obtain rfl : answer = some 1032 := same
  have disjoint := safe after (some 1032) result ⟨8, 16376⟩ (by decide)
  exact absurd disjoint (by decide)

end Gaveta
