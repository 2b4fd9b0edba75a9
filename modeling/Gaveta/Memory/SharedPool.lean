import Gaveta.Memory.Callers

/-! The page table when several callers work on it page by page. -/

namespace Gaveta

open Monitor

def Memory.reopened (m : Memory) : Memory := { m with memoryS := 1 }

def Settled (start : Memory) (heap : Heap) : Prop :=
  Heap.Reaches start Heap.Served { heap with memory := heap.memory.reopened }

def remark (m : Memory) (first stop count : Nat) (mark : Page → Page) : Memory :=
  { m with
    freePageNum := count
    pages := fun k => if first ≤ k ∧ k < stop then mark (m.pages k) else m.pages k }

section Remark

variable {m : Memory} {first stop count : Nat} {mark : Page → Page}

theorem remark_start : remark m first first count mark = { m with freePageNum := count } := by
  have none : ∀ k, ¬(first ≤ k ∧ k < first) := fun k => by omega
  simp only [remark, none, ↓reduceIte]

theorem markPage_remark (later : first ≤ stop) :
    markPage (remark m first stop count mark) stop mark = remark m first (stop + 1) count mark := by
  have pages : (markPage (remark m first stop count mark) stop mark).pages =
      (remark m first (stop + 1) count mark).pages := by
    funext k
    by_cases own : k = stop
    · subst own
      simp [markPage, remark, later]
    · have same : (first ≤ k ∧ k < stop + 1) ↔ (first ≤ k ∧ k < stop) := by omega
      simp only [markPage, remark, Function.update_of_ne own, same]
  rw [markPage, Memory.mk.injEq]
  exact ⟨rfl, rfl, rfl, pages, rfl, rfl, rfl⟩

end Remark

section Sequential

variable {start m : Memory} {live : List Block} {mem : Block} {bytes i : Nat}

theorem firstFit_eq (run : FreeRun m (numPages bytes) i)
    (least : ∀ earlier < i, ¬FreeRun m (numPages bytes) earlier) :
    firstFit m.pages m.len (numPages bytes) m.len 0 = some i := by
  cases search : firstFit m.pages m.len (numPages bytes) m.len 0 with
  | none => exact absurd run ((firstFit_missing (HeapInvariant.count_pos bytes)).mp search i)
  | some found =>
      obtain ⟨inside, free⟩ := firstFit_some search
      have first := (firstFit_least search).2 i (Nat.zero_le i)
      have later : ¬found < i := fun earlier => least found earlier ⟨inside, free⟩
      have notLater : ¬i < found := fun earlier => first earlier run
      rw [show found = i by omega]

theorem Settled.take (settled : Settled start { memory := m, live := live })
    (accounted : Accounted { memory := m, live := live } 0) (asked : 0 < bytes)
    (run : FreeRun m (numPages bytes) i)
    (least : ∀ earlier < i, ¬FreeRun m (numPages bytes) earlier) :
    Settled start
      { memory := takePages m i (numPages bytes)
        live := { address := i * pageSize + allocHeaderSize, bytes := bytes } :: live } := by
  have invariant := accounted.invariant
  have room := numPages_room bytes
  have len := invariant.len
  have small := invariant.small
  have inside := run.inside
  have card := invariant.card_cons (invariant.take asked run.inside run.free) (.refl _) rfl
  have count := accounted.count
  dsimp only at len small card count
  simp only [pageSize, allocHeaderSize] at room len
  have enough : numPages bytes ≤ m.freePageNum := by omega
  have accepted : ¬(bytes = 0 ∨ m.size ≤ bytes) := by omega
  have allocates : gAllocate m.reopened bytes =
      some ((takePages m i (numPages bytes)).reopened, some (i * pageSize + allocHeaderSize)) := by
    have found := firstFit_eq run least
    have search : firstFit m.reopened.pages m.reopened.len (numPages bytes) m.reopened.len 0 =
        some i := found
    have served : numPages bytes ≤ m.reopened.freePageNum := enough
    have size : ¬(bytes = 0 ∨ m.reopened.size ≤ bytes) := accepted
    rw [gAllocate_served served, if_neg size, search]
    rfl
  refine settled.step (served_allocate (by omega : bytes < u32Range) enough) ?_
  simp only [Heap.act, allocates]

theorem HeapInvariant.release_header (invariant : HeapInvariant { memory := m, live := live })
    (member : mem ∈ live) :
    readU32 m.pool (getHeader mem.address) = mem.first ∧
      readU32 m.pool (getHeader mem.address + 4) = numPages mem.bytes ∧
      (mem.first + numPages mem.bytes) % u32Range = mem.first + numPages mem.bytes := by
  have header := invariant.header mem member
  have inside := invariant.block_inside member
  have small := invariant.len_lt
  dsimp only at header inside small
  rw [invariant.getHeader_live member]
  refine ⟨header.1, header.2, Nat.mod_eq_of_lt ?_⟩
  simp only [u32Range]
  omega

theorem Settled.release (settled : Settled start { memory := m, live := live })
    (invariant : HeapInvariant { memory := m, live := live }) (member : mem ∈ live) :
    Settled start
      { memory :=
          remark m mem.first (mem.first + numPages mem.bytes)
            ((m.freePageNum + numPages mem.bytes) % u32Range) fun page => { page with free := true }
        live := live.erase mem } := by
  obtain ⟨id, pageNum, stop⟩ := invariant.release_header member
  have served : Heap.Served { memory := m.reopened, live := live } (.deallocate mem) :=
    ⟨member, fun bytes other => by cases other⟩
  refine settled.step served ?_
  simp only [Heap.act, gDeallocate, semWait, semPost, Memory.reopened, id, pageNum, stop, remark]
  rfl

theorem Settled.store {heap : Heap} {owner : Block} {address : Nat} (value : UInt8)
    (settled : Settled start heap) (owned : owner ∈ heap.live) (lower : owner.address ≤ address)
    (upper : address < owner.address + owner.bytes) :
    Settled start { heap with
      memory := { heap.memory with pool := Function.update heap.memory.pool address value } } := by
  have served : Heap.Served { heap with memory := heap.memory.reopened }
      (.store address value) :=
    ⟨⟨owner, owned, lower, upper⟩, fun bytes other => by cases other⟩
  exact settled.step served rfl

end Sequential

namespace Stage

/-- What the holder of the lock knows about the pool, or about the pool as it was before. -/
def Knows (start : Memory) (heap : Heap) : Stage → Prop
  | scanning bytes i j =>
      Settled start heap ∧ 0 < bytes ∧ i ≤ j ∧ j ≤ i + numPages bytes ∧
        (∀ k, i ≤ k → k < j → (heap.memory.pages k).free = true) ∧
        ∀ earlier < i, ¬FreeRun heap.memory (numPages bytes) earlier
  | marking bytes i j =>
      ∃ before : Memory, Settled start { heap with memory := before } ∧ 0 < bytes ∧
        FreeRun before (numPages bytes) i ∧
        (∀ earlier < i, ¬FreeRun before (numPages bytes) earlier) ∧
        i ≤ j ∧ j ≤ i + numPages bytes ∧
        heap.memory = remark before i j (before.freePageNum - numPages bytes)
          fun _ => { free := false, used := true }
  | opening mem => Settled start heap ∧ ∀ block ∈ mem, block ∈ heap.live
  | freeing mem i =>
      ∃ before : Memory, Settled start { heap with memory := before } ∧ mem ∈ heap.live ∧
        mem.first ≤ i ∧ i ≤ mem.first + numPages mem.bytes ∧
        heap.memory = remark before mem.first i before.freePageNum
          fun page => { page with free := true }
  | missing | taken | freed => Settled start heap
  | _ => False

def Asks : Stage → Prop
  | testing bytes => 0 < bytes
  | searching bytes => 0 < bytes
  | _ => True

variable {start m after : Memory} {live : List Block} {stage next : Stage}

theorem knows_store {heap : Heap} {owner : Block} {address : Nat} (value : UInt8)
    (owned : owner ∈ heap.live) (lower : owner.address ≤ address)
    (upper : address < owner.address + owner.bytes) (knows : stage.Knows start heap) :
    stage.Knows start { heap with
      memory := { heap.memory with pool := Function.update heap.memory.pool address value } } := by
  cases stage with
  | scanning bytes i j =>
      obtain ⟨settled, asked, lower', upper', known, least⟩ := knows
      exact ⟨settled.store value owned lower upper, asked, lower', upper', known,
        fun earlier below run => least earlier below ⟨run.inside, run.free⟩⟩
  | marking bytes i j =>
      obtain ⟨before, settled, asked, run, least, from_i, upto, same⟩ := knows
      refine ⟨{ before with pool := Function.update before.pool address value },
        settled.store value owned lower upper, asked, ⟨run.inside, run.free⟩,
        fun earlier below run => least earlier below ⟨run.inside, run.free⟩, from_i, upto, ?_⟩
      dsimp only
      rw [same]
      rfl
  | opening mem => exact ⟨knows.1.store value owned lower upper, knows.2⟩
  | freeing mem i =>
      obtain ⟨before, settled, member, from_first, upto, same⟩ := knows
      refine ⟨{ before with pool := Function.update before.pool address value },
        settled.store value owned lower upper, member, from_first, upto, ?_⟩
      dsimp only
      rw [same]
      rfl
  | missing | taken | freed => exact Settled.store value knows owned lower upper
  | _ => exact knows

theorem advance_respects
    (ordered : ∀ heap, Settled start heap → Accounted heap 0) (quiet : stage.replaces = false)
    (away : next.replaces = false) (asks : stage.Asks)
    (owned : ∀ block, stage.release = some block → block ∈ live)
    (moves : stage.advance m = .moves after next) :
    Respects holds (Settled start) (fun stage heap => stage.Knows start heap)
      { memory := m, live := live } stage
      { memory := after, live := stage.settle m live } next := by
  cases stage with
  | idle => cases moves
  | exiting => cases moves
  | testing bytes =>
      simp only [advance] at moves
      split_ifs at moves with short
      · cases moves
        cases away
      · cases moves
        rfl
  | searching bytes =>
      obtain ⟨_, rfl, rfl⟩ := enter_moves moves
      intro settled
      exact ⟨settled, asks, le_rfl, Nat.zero_le _, fun k lower upper => by omega,
        fun earlier below => by omega⟩
  | releasing mem =>
      obtain ⟨_, rfl, rfl⟩ := enter_moves moves
      exact fun settled => ⟨settled, fun block member => owned block member⟩
  | scanning bytes i j =>
      simp only [advance] at moves
      split_ifs at moves with beyond more free
      · cases moves
        exact fun knows => knows.1
      · cases moves
        rintro ⟨settled, asked, lower, upper, known, least⟩
        refine ⟨settled, asked, by omega, by omega, fun k from_i below => ?_, least⟩
        rcases Nat.lt_succ_iff_lt_or_eq.mp below with below | rfl
        · exact known k from_i below
        · exact free
      · cases moves
        rintro ⟨settled, asked, lower, upper, known, least⟩
        refine ⟨settled, asked, le_rfl, by omega, fun k from_i below => by omega, ?_⟩
        intro earlier below run
        rcases Nat.lt_succ_iff_lt_or_eq.mp below with below | rfl
        · exact least earlier below run
        · exact free (run.free j lower more)
      · cases moves
        rintro ⟨settled, asked, lower, upper, known, least⟩
        exact ⟨m, settled, asked, ⟨by omega, fun k from_i below => known k from_i (by omega)⟩,
          least, le_rfl, by omega, remark_start.symm⟩
  | marking bytes i j =>
      simp only [advance] at moves
      split_ifs at moves with more
      · cases moves
        rintro ⟨before, settled, asked, run, least, lower, upper, same⟩
        refine ⟨before, ?_, asked, run, least, by omega, by omega, ?_⟩
        · simpa only [settle, more, ↓reduceIte] using settled
        · dsimp only at same ⊢
          rw [same]
          exact markPage_remark lower
      · cases moves
        rintro ⟨before, settled, asked, run, least, lower, upper, same⟩
        have taken := settled.take (ordered _ settled) asked run least
        obtain rfl : j = i + numPages bytes := by omega
        simp only [settle, more, ↓reduceIte]
        obtain rfl : m = _ := same
        exact taken
  | opening mem =>
      cases mem with
      | none =>
          cases moves
          exact fun knows => knows.1
      | some mem =>
          cases moves
          rintro ⟨settled, member⟩
          have live := member mem rfl
          rw [((ordered _ settled).invariant.release_header live).1]
          exact ⟨m, settled, live, le_rfl, by omega, remark_start.symm⟩
  | freeing mem i =>
      simp only [advance] at moves
      split_ifs at moves with more
      · cases moves
        rintro ⟨before, settled, member, lower, upper, same⟩
        obtain rfl : m = _ := same
        obtain ⟨id, pageNum, stop⟩ := (ordered _ settled).invariant.release_header member
        simp only [remark, id, pageNum, stop] at more
        refine ⟨before, ?_, ?_, by omega, by omega, markPage_remark lower⟩
        · simpa only [settle, remark, id, pageNum, stop, more, ↓reduceIte] using settled
        · simpa only [settle, remark, id, pageNum, stop, more, ↓reduceIte] using member
      · cases moves
        rintro ⟨before, settled, member, lower, upper, same⟩
        obtain rfl : m = _ := same
        have invariant := (ordered _ settled).invariant
        obtain ⟨id, pageNum, stop⟩ := invariant.release_header member
        simp only [remark, id, pageNum, stop] at more
        obtain rfl : i = mem.first + numPages mem.bytes := by omega
        have released := settled.release invariant member
        simp only [settle, remark, id, pageNum, stop, lt_self_iff_false, ↓reduceIte]
        exact released
  | missing | taken | freed =>
      cases moves
      exact fun settled => settled
  | _ => cases quiet

theorem advance_quiet (quiet : stage.replaces = false)
    (served : ∀ bytes, stage = .testing bytes → numPages bytes ≤ m.freePageNum)
    (moves : stage.advance m = .moves after next) : next.replaces = false := by
  cases stage with
  | idle => cases moves
  | exiting => cases moves
  | testing bytes =>
      have enough := served bytes rfl
      rw [advance, if_neg (by omega)] at moves
      cases moves
      rfl
  | searching | releasing =>
      obtain ⟨_, _, rfl⟩ := enter_moves moves
      rfl
  | scanning | marking | freeing =>
      simp only [advance] at moves
      split_ifs at moves <;> cases moves <;> rfl
  | opening mem => cases mem <;> cases moves <;> rfl
  | missing | taken | freed =>
      cases moves
      rfl
  | _ => cases quiet

theorem advance_asks (quiet : stage.replaces = false) (asks : stage.Asks)
    (moves : stage.advance m = .moves after next) : next.Asks := by
  cases stage with
  | idle => cases moves
  | exiting => cases moves
  | testing bytes =>
      simp only [advance] at moves
      split_ifs at moves <;> cases moves
      · trivial
      · exact asks
  | searching | releasing =>
      obtain ⟨_, _, rfl⟩ := enter_moves moves
      trivial
  | scanning | marking | freeing =>
      simp only [advance] at moves
      split_ifs at moves <;> cases moves <;> trivial
  | opening mem => cases mem <;> cases moves <;> trivial
  | missing | taken | freed =>
      cases moves
      trivial
  | _ => cases quiet

theorem advance_release (live : List Block) (quiet : stage.replaces = false)
    (moves : stage.advance m = .moves after next) {block : Block}
    (released : next.release = some block) :
    stage.release = some block ∧ stage.settle m live = live := by
  cases stage with
  | idle => cases moves
  | exiting => cases moves
  | testing | scanning | marking =>
      simp only [advance] at moves
      split_ifs at moves <;> cases moves <;> cases released
  | searching =>
      obtain ⟨_, _, rfl⟩ := enter_moves moves
      cases released
  | releasing mem =>
      obtain ⟨_, _, rfl⟩ := enter_moves moves
      exact ⟨released, rfl⟩
  | opening mem =>
      cases mem <;> cases moves
      · cases released
      · exact ⟨released, rfl⟩
  | freeing mem i =>
      simp only [advance] at moves
      split_ifs at moves with more <;> cases moves
      · exact ⟨released, by simp only [settle, more, ↓reduceIte]⟩
      · cases released
  | missing | taken | freed =>
      cases moves
      cases released
  | _ => cases quiet

theorem mem_settle {block : Block} (other : stage.release ≠ some block) (member : block ∈ live) :
    block ∈ stage.settle m live := by
  cases stage with
  | marking bytes i j =>
      simp only [settle]
      split_ifs
      · exact member
      · exact List.mem_cons_of_mem _ member
  | freeing mem i =>
      have different : block ≠ mem := fun same => other (congrArg some same.symm)
      simp only [settle]
      split_ifs
      · exact member
      · exact (List.mem_erase_of_ne different).mpr member
  | _ => exact member

end Stage

namespace Callers

variable {ι : Type} [DecidableEq ι] [Fintype ι] {start : Memory} {callers after : Callers ι}

structure Sound (start : Memory) (callers : Callers ι) : Prop where
  kept : LockKept callers
  clean : callers.failures = 0
  quiet : ∀ caller, (callers.stages caller).replaces = false
  asks : ∀ caller, (callers.stages caller).Asks
  owned : ∀ caller block, (callers.stages caller).release = some block → block ∈ callers.heap.live
  single : ∀ caller other block, (callers.stages caller).release = some block →
    (callers.stages other).release = some block → caller = other
  guarded : Guarded Stage.holds (Settled start) (fun stage heap => stage.Knows start heap)
    callers.heap callers.stages

namespace Sound

theorem move (sound : Sound start callers) {caller : ι} {heap : Heap} {stage : Stage}
    (kept : LockKept
      { heap := heap, stages := Function.update callers.stages caller stage, failures := 0 })
    (enters : (callers.stages caller).holds = false → stage.holds = true →
      0 < callers.heap.memory.memoryS)
    (quiet : stage.replaces = false) (asks : stage.Asks)
    (release : ∀ block, stage.release = some block → block ∈ heap.live ∧
      ∀ other, other ≠ caller → (callers.stages other).release ≠ some block)
    (keeps : ∀ block ∈ callers.heap.live, (callers.stages caller).release ≠ some block →
      block ∈ heap.live)
    (respects : Respects Stage.holds (Settled start) (fun stage heap => stage.Knows start heap)
      callers.heap (callers.stages caller) heap stage) :
    Sound start { heap := heap, stages := Function.update callers.stages caller stage, failures := 0 } := by
  have count := sound.kept.count
  have sign := sound.kept.sign
  have clean := sound.clean
  have every : ∀ (P : Stage → Prop), P stage → (∀ other, P (callers.stages other)) →
      ∀ other, P (Function.update callers.stages caller stage other) := by
    intro P own others other
    by_cases same : other = caller
    · rwa [same, Function.update_self]
    · rw [Function.update_of_ne same]
      exact others other
  refine ⟨kept, rfl, every (fun stage => stage.replaces = false) quiet sound.quiet,
    every Stage.Asks asks sound.asks, ?_, ?_, ?_⟩
  · intro other block released
    by_cases own : other = caller
    · rw [own] at released
      dsimp only at released
      rw [Function.update_self] at released
      exact (release block released).1
    · dsimp only at released
      rw [Function.update_of_ne own] at released
      refine keeps block (sound.owned other block released) fun also => own ?_
      exact sound.single other caller block released also
  · intro first second block released also
    dsimp only at released also
    by_cases one : first = caller <;> by_cases two : second = caller
    · rw [one, two]
    · rw [one, Function.update_self] at released
      rw [Function.update_of_ne two] at also
      exact absurd also ((release block released).2 second two)
    · rw [two, Function.update_self] at also
      rw [Function.update_of_ne one] at released
      exact absurd released ((release block also).2 first one)
    · rw [Function.update_of_ne one] at released
      rw [Function.update_of_ne two] at also
      exact sound.single first second block released also
  · refine sound.guarded.move (by omega) (fun outside inside => ?_) respects
    have vacant := enters outside inside
    omega

theorem place (sound : Sound start callers) {caller : ι} {stage : Stage}
    (idle : callers.stages caller = .idle) (outside : stage.holds = false)
    (quiet : stage.replaces = false) (asks : stage.Asks)
    (release : ∀ block, stage.release = some block → block ∈ callers.heap.live ∧
      ∀ other, (callers.stages other).release ≠ some block) :
    Sound start (callers.place caller stage) := by
  have kept := sound.kept.place idle outside
  have clean := sound.clean
  have same : callers.place caller stage =
      { heap := callers.heap
        stages := Function.update callers.stages caller stage
        failures := 0 } := by
    rw [Callers.place, clean]
  rw [same] at kept ⊢
  refine sound.move kept (fun _ inside => ?_) quiet asks
    (fun block released =>
      ⟨(release block released).1, fun other _ => (release block released).2 other⟩)
    (fun block member _ => member) ?_
  · rw [outside] at inside
    cases inside
  · rw [idle, Respects]
    split
    · rfl
    · rename_i inside
      rw [outside] at inside
      cases inside
    · rename_i inside _
      cases inside
    · rename_i inside _
      cases inside

theorem run (sound : Sound start callers) {caller : ι}
    (ordered : ∀ heap, Settled start heap → Accounted heap 0)
    (served : ∀ bytes, callers.stages caller = .testing bytes →
      numPages bytes ≤ callers.heap.memory.freePageNum)
    (kept : LockKept after) (acts : callers.act (.run caller) = some after) : Sound start after := by
  obtain ⟨memory, next, moves, rfl⟩ := act_run acts
  have quiet := sound.quiet caller
  have single : (callers.stages caller).surplus = 0 := by
    cases stage : callers.stages caller with
    | failing bytes =>
        rw [stage] at quiet
        cases quiet
    | _ => rfl
  have failures : callers.failures + (callers.stages caller).surplus = 0 := by
    rw [sound.clean, single]
  rw [failures] at kept ⊢
  have away := Stage.advance_quiet quiet (fun bytes same => served bytes same) moves
  refine sound.move kept ?_ away (Stage.advance_asks quiet (sound.asks caller) moves) ?_ ?_ ?_
  · intro outside inside
    have balance := (Stage.advance_balanced moves).balance
    have sign := (Stage.advance_balanced moves).sign sound.kept.sign
    rw [outside, inside, single] at balance
    simp only [Bool.toNat_true, Bool.toNat_false] at balance
    omega
  · intro block released
    obtain ⟨own, same⟩ := Stage.advance_release callers.heap.live quiet moves released
    refine ⟨?_, fun other different also => different ?_⟩
    · dsimp only
      rw [same]
      exact sound.owned caller block own
    · exact sound.single other caller block also own
  · exact fun block member other => Stage.mem_settle other member
  · exact Stage.advance_respects ordered quiet away (sound.asks caller) (sound.owned caller) moves

theorem step (sound : Sound start callers) {event : CallEvent ι}
    (ordered : ∀ heap, Settled start heap → Accounted heap 0) (served : callers.Served event)
    (acts : callers.act event = some after) : Sound start after := by
  have kept := sound.kept.step served.1 acts
  cases event with
  | allocate caller bytes =>
      rw [act] at acts
      split_ifs at acts with refused <;> cases acts
      · exact sound
      · rw [not_or] at refused
        exact sound.place served.1.1 rfl rfl (Nat.pos_of_ne_zero refused.1)
          fun block released => by cases released
  | deallocate caller mem =>
      cases acts
      exact sound.place served.1.1 rfl rfl trivial fun block released => served.1.2 block released
  | run caller => exact sound.run ordered (fun bytes => served.2 caller bytes rfl) kept acts
  | store address value =>
      obtain ⟨owner, owned, lower, upper⟩ := served.1
      cases acts
      refine ⟨kept, sound.clean, sound.quiet, sound.asks, sound.owned, sound.single, ?_⟩
      exact sound.guarded.interfere
        (fun settled => Settled.store value settled owned lower upper)
        fun caller knows => Stage.knows_store value owned lower upper knows

omit [DecidableEq ι] in
/-- The blocks in use are those of a pool at rest also while somebody is inside. -/
theorem settled (sound : Sound start callers) :
    ∃ before : Memory, before.len = callers.heap.memory.len ∧
      before.pool = callers.heap.memory.pool ∧
      Settled start { callers.heap with memory := before } := by
  by_cases vacant : ∀ caller, (callers.stages caller).holds = false
  · exact ⟨callers.heap.memory, rfl, rfl, sound.guarded.free vacant⟩
  · simp only [not_forall, Bool.not_eq_false] at vacant
    obtain ⟨caller, inside⟩ := vacant
    have knows := sound.guarded.busy caller inside
    cases stage : callers.stages caller with
    | scanning | opening =>
        rw [stage] at knows
        exact ⟨callers.heap.memory, rfl, rfl, knows.1⟩
    | marking bytes i j =>
        rw [stage] at knows
        obtain ⟨before, settled, _, _, _, _, _, same⟩ := knows
        exact ⟨before, by rw [same]; rfl, by rw [same]; rfl, settled⟩
    | freeing mem i =>
        rw [stage] at knows
        obtain ⟨before, settled, _, _, _, same⟩ := knows
        exact ⟨before, by rw [same]; rfl, by rw [same]; rfl, settled⟩
    | missing | taken | freed =>
        rw [stage] at knows
        exact ⟨callers.heap.memory, rfl, rfl, knows⟩
    | _ =>
        rw [stage] at knows
        cases knows

end Sound

theorem settled_accounted {hand memSize : Nat} {bytes : Nat → UInt8} (small : memSize < u32Range)
    {heap : Heap} (settled : Settled (initMemory hand bytes memSize) heap) : Accounted heap 0 := by
  have accounted := settled.accounted small
  have invariant := accounted.invariant
  exact ⟨⟨invariant.len, invariant.small, invariant.packed, invariant.asked, invariant.aligned,
    invariant.free, invariant.header⟩, accounted.count, accounted.bound⟩

theorem Reaches.sound {hand memSize : Nat} {bytes : Nat → UInt8} (small : memSize < u32Range)
    (reached : Reaches (initMemory hand bytes memSize) Served callers) :
    Sound (initMemory hand bytes memSize) callers := by
  induction reached with
  | start =>
      refine ⟨Reaches.start.lockKept, rfl, fun _ => rfl, fun _ => trivial, ?_, ?_, ?_, ?_⟩
      · intro caller block released
        cases released
      · intro caller other block released
        cases released
      · exact fun _ => Heap.Reaches.start
      · intro caller inside
        cases inside
  | step before allowed acts ih => exact ih.step (fun _ => settled_accounted small) allowed acts

end Callers

/-- The lock makes one step of each loop over the page table: whoever runs when, as long as each test
of `free_page_num` finds enough pages, the pool is, whenever nobody is inside, one that the same calls
reach one after the other; and blocks in use never overlap, lie in the pool and keep their headers
even while somebody is inside. -/
theorem shared_pool_sequential {ι : Type} [Fintype ι] [DecidableEq ι] (hand : Nat)
    (bytes : Nat → UInt8) (memSize : Nat) (small : memSize < u32Range) (callers : Callers ι)
    (reached : Callers.Reaches (initMemory hand bytes memSize) Callers.Served callers) :
    ((∀ caller, (callers.stages caller).holds = false) →
      Heap.Reaches (initMemory hand bytes memSize) Heap.Served callers.heap) ∧
      callers.heap.live.Pairwise (fun left right => Disjoint left.pages right.pages) ∧
      ∀ block ∈ callers.heap.live,
        block.first + numPages block.bytes ≤ callers.heap.memory.len ∧
          block.address = block.first * pageSize + allocHeaderSize ∧
          readU32 callers.heap.memory.pool (block.first * pageSize) = block.first ∧
          readU32 callers.heap.memory.pool (block.first * pageSize + 4) = numPages block.bytes := by
  have sound := reached.sound small
  obtain ⟨before, len, pool, settled⟩ := sound.settled
  have invariant := (Callers.settled_accounted small settled).invariant
  refine ⟨fun vacant => ?_, invariant.apart, fun block member => ?_⟩
  · have settled := sound.guarded.free vacant
    have count := sound.kept.count
    rw [Monitor.holding_eq_zero.mpr vacant, sound.clean] at count
    have lock : callers.heap.memory.memoryS = 1 := by omega
    have same : callers.heap.memory.reopened = callers.heap.memory := by
      rw [Memory.reopened, ← lock]
    rwa [Settled, same] at settled
  · have inside := invariant.block_inside member
    have header := invariant.header block member
    dsimp only at inside header
    rw [len] at inside
    rw [pool] at header
    exact ⟨inside, invariant.aligned block member, header⟩

theorem shared_pool_sequential_two : inside.heap.live = [⟨8, 100⟩] ∧
    ∀ block ∈ inside.heap.live,
      readU32 inside.heap.memory.pool (block.first * pageSize) = block.first := by
  have facts := shared_pool_sequential 0 (fun _ => 0) 32768 (by decide) inside inside_reached
  exact ⟨by rfl, fun block member => (facts.2.2 block member).2.2.1⟩

end Gaveta
