import Gaveta.Library.Monitor
import Gaveta.Memory.FirstFit

/-! Several callers of the pool at a time, each between two accesses to what they share. -/

namespace Gaveta

/-- Where a caller is in `g_allocate`, in the `second_chance` that it calls, or in `g_deallocate`. -/
inductive Stage where
  | idle
  /-- before the test of `free_page_num`, which needs no lock -/
  | testing (bytes : Nat)
  /-- before `second_chance` reads its static `i` -/
  | entering (bytes : Nat)
  | choosing (bytes curr : Nat)
  | sweeping (bytes curr : Nat)
  | found (bytes curr : Nat)
  | storing (bytes curr : Nat)
  | passed (bytes : Nat)
  | failing (bytes : Nat)
  | replacing (bytes page : Nat)
  | handing (bytes page : Nat)
  | handed (bytes : Nat)
  | searching (bytes : Nat)
  /-- looks for pages from `i` on, which are free up to `j` -/
  | scanning (bytes i j : Nat)
  | missing
  | exiting
  /-- has marked the pages from `i` up to `j` -/
  | marking (bytes i j : Nat)
  | taken
  | releasing (mem : Option Block)
  | opening (mem : Option Block)
  | freeing (mem : Block) (i : Nat)
  | freed
deriving DecidableEq

namespace Stage

/-- Between a `sem_wait` and the `sem_post` that belongs to it. -/
def holds : Stage → Bool
  | sweeping .. | found .. | passed .. | handing .. | handed .. => true
  | scanning .. | missing | marking .. | taken => true
  | opening .. | freeing .. | freed => true
  | _ => false

def release : Stage → Option Block
  | releasing mem => mem
  | opening mem => mem
  | freeing mem _ => some mem
  | _ => none

/-- The `sem_post` of `g_allocate` that has no `sem_wait`, where no page can be replaced. -/
def surplus : Stage → Nat
  | failing _ => 1
  | _ => 0

def replaces : Stage → Bool
  | entering .. | choosing .. | sweeping .. | found .. | storing .. | passed .. | failing .. => true
  | replacing .. | handing .. | handed .. => true
  | _ => false

end Stage

inductive Outcome where
  | moves (memory : Memory) (stage : Stage)
  | waits
  | exits

def enter (m : Memory) (stage : Stage) : Outcome :=
  if 0 < m.memoryS then .moves (semWait m) stage else .waits

def markPage (m : Memory) (page : Nat) (mark : Page → Page) : Memory :=
  { m with pages := Function.update m.pages page (mark (m.pages page)) }

/-- What a caller does next; nothing if it has no call to work on. -/
def Stage.advance (m : Memory) : Stage → Outcome
  | idle => .waits
  | testing bytes =>
      if m.freePageNum < numPages bytes then .moves m (entering bytes)
      else .moves m (searching bytes)
  | entering bytes => .moves m (choosing bytes m.hand)
  | choosing bytes curr => enter m (sweeping bytes curr)
  | sweeping bytes curr =>
      if (m.pages curr).used = false then .moves m (found bytes curr)
      else
        let m := markPage m curr fun page => { page with used := false }
        let curr := (curr + 1) % m.len
        if curr + 1 = m.hand then .moves { m with hand := (curr + 1) % m.len } (passed bytes)
        else .moves m (sweeping bytes curr)
  | found bytes curr => .moves (semPost m) (storing bytes curr)
  | storing bytes curr =>
      .moves { m with hand := (curr + 1) % m.len } (replacing bytes ((curr + 1) % m.len))
  | passed bytes => .moves (semPost m) (failing bytes)
  | failing _ => .moves (semPost m) idle
  | replacing bytes page => enter m (handing bytes page)
  | handing bytes page => .moves (handOver m page) (handed bytes)
  | handed bytes => .moves (semPost m) (testing bytes)
  | searching bytes => enter m (scanning bytes 0 0)
  | scanning bytes i j =>
      if m.len < i + numPages bytes then .moves m missing
      else if j < i + numPages bytes then
        if (m.pages j).free then .moves m (scanning bytes i (j + 1))
        else .moves m (scanning bytes (i + 1) (i + 1))
      else .moves { m with freePageNum := m.freePageNum - numPages bytes } (marking bytes i i)
  | missing => .moves (semPost m) exiting
  | exiting => .exits
  | marking bytes i j =>
      if j < i + numPages bytes then
        .moves (markPage m j fun _ => { free := false, used := true }) (marking bytes i (j + 1))
      else
        .moves
          { m with
            pool := writeU32 (writeU32 m.pool (i * pageSize) i) (i * pageSize + 4) (numPages bytes) }
          taken
  | taken => .moves (semPost m) idle
  | releasing mem => enter m (opening mem)
  | opening none => .moves m freed
  | opening (some mem) => .moves m (freeing mem (readU32 m.pool (getHeader mem.address)))
  | freeing mem i =>
      let id := readU32 m.pool (getHeader mem.address)
      let pageNum := readU32 m.pool (getHeader mem.address + 4)
      if i < (id + pageNum) % u32Range then
        .moves (markPage m i fun page => { page with free := true }) (freeing mem (i + 1))
      else .moves { m with freePageNum := (m.freePageNum + pageNum) % u32Range } freed
  | freed => .moves (semPost m) idle

/-- The blocks that are live after a caller has moved on from a stage: a block is as soon as its
header is written, and until the pages of its header are counted as free. -/
def Stage.settle (m : Memory) (live : List Block) : Stage → List Block
  | marking bytes i j =>
      if j < i + numPages bytes then live
      else { address := i * pageSize + allocHeaderSize, bytes := bytes } :: live
  | freeing mem i =>
      let id := readU32 m.pool (getHeader mem.address)
      let pageNum := readU32 m.pool (getHeader mem.address + 4)
      if i < (id + pageNum) % u32Range then live else live.erase mem
  | _ => live

/-- The pool, the stage of each caller and how many calls have failed after a whole sweep. -/
structure Callers (ι : Type) where
  heap : Heap
  stages : ι → Stage
  failures : Nat

inductive CallEvent (ι : Type) where
  | allocate (caller : ι) (bytes : Nat)
  | deallocate (caller : ι) (mem : Option Block)
  | run (caller : ι)
  | store (address : Nat) (value : UInt8)

namespace Callers

variable {ι : Type} [DecidableEq ι]

def place (callers : Callers ι) (caller : ι) (stage : Stage) : Callers ι :=
  { callers with stages := Function.update callers.stages caller stage }

/-- One event; nothing if the caller cannot move on or the process has ended. -/
def act (callers : Callers ι) : CallEvent ι → Option (Callers ι)
  | .allocate caller bytes =>
      if bytes = 0 ∨ callers.heap.memory.size ≤ bytes then some callers
      else some (callers.place caller (.testing bytes))
  | .deallocate caller mem => some (callers.place caller (.releasing mem))
  | .run caller =>
      let stage := callers.stages caller
      match stage.advance callers.heap.memory with
      | .moves memory next =>
          some
            { heap :=
                { memory := memory, live := stage.settle callers.heap.memory callers.heap.live }
              stages := Function.update callers.stages caller next
              failures := callers.failures + stage.surplus }
      | .waits => none
      | .exits => none
  | .store address value =>
      some
        { callers with
          heap :=
            { callers.heap with
              memory :=
                { callers.heap.memory with
                  pool := Function.update callers.heap.memory.pool address value } } }

/-- A caller has one call at a time, and a block that is being given back has no owner. -/
def Owns (callers : Callers ι) : CallEvent ι → Prop
  | .allocate caller bytes => callers.stages caller = .idle ∧ bytes < u32Range
  | .deallocate caller mem =>
      callers.stages caller = .idle ∧ ∀ block ∈ mem, block ∈ callers.heap.live ∧
        ∀ other, (callers.stages other).release ≠ some block
  | .run _ => True
  | .store address _ =>
      ∃ block ∈ callers.heap.live, block.address ≤ address ∧
        address < block.address + block.bytes

inductive Reaches (start : Memory) (admitted : Callers ι → CallEvent ι → Prop) : Callers ι → Prop
  | start : Reaches start admitted
      { heap := { memory := start, live := [] }, stages := fun _ => .idle, failures := 0 }
  | step {callers after : Callers ι} {event : CallEvent ι} (before : Reaches start admitted callers)
      (allowed : admitted callers event) (acts : callers.act event = some after) :
      Reaches start admitted after

end Callers

theorem enter_moves {m after : Memory} {stage next : Stage}
    (moves : enter m stage = .moves after next) :
    0 < m.memoryS ∧ after = semWait m ∧ next = stage := by
  rw [enter] at moves
  split_ifs at moves with vacant
  cases moves
  exact ⟨vacant, rfl, rfl⟩

structure Balanced (m after : Memory) (stage next : Stage) : Prop where
  balance : after.memoryS + (next.holds.toNat : Int) =
    m.memoryS + stage.holds.toNat + stage.surplus
  sign : 0 ≤ m.memoryS → 0 ≤ after.memoryS

theorem Balanced.same {m after : Memory} {stage next : Stage}
    (kept : after.memoryS = m.memoryS) (inside : next.holds = stage.holds)
    (once : stage.surplus = 0) : Balanced m after stage next := by
  constructor
  · rw [kept, inside, once]
    simp
  · rw [kept]
    exact id

theorem Balanced.entered {m after : Memory} {stage next goal : Stage}
    (moves : enter m goal = .moves after next) (outside : stage.holds = false)
    (inside : goal.holds = true) (once : stage.surplus = 0) :
    Balanced m after stage next := by
  obtain ⟨vacant, rfl, rfl⟩ := enter_moves moves
  constructor
  · rw [outside, inside, once]
    simp [semWait]
  · intro _
    simp only [semWait]
    omega

theorem Balanced.left {m : Memory} {stage next : Stage} (inside : stage.holds = true)
    (outside : next.holds = false) (once : stage.surplus = 0) :
    Balanced m (semPost m) stage next := by
  constructor
  · rw [outside, inside, once]
    simp [semPost]
  · intro sign
    simp only [semPost]
    omega

theorem Stage.advance_balanced {m after : Memory} {stage next : Stage}
    (moves : stage.advance m = .moves after next) : Balanced m after stage next := by
  cases stage with
  | idle => cases moves
  | exiting => cases moves
  | choosing | replacing | searching | releasing => exact .entered moves rfl rfl rfl
  | found | passed | handed | missing | taken | freed =>
      cases moves
      exact .left rfl rfl rfl
  | failing bytes =>
      cases moves
      constructor
      · simp [semPost, holds, surplus]
      · intro sign
        simp only [semPost]
        omega
  | entering | storing | handing =>
      cases moves
      exact .same rfl rfl rfl
  | testing | sweeping | scanning | marking | freeing =>
      simp only [advance] at moves
      split_ifs at moves <;> cases moves <;> exact .same rfl rfl rfl
  | opening mem =>
      cases mem <;> cases moves <;> exact .same rfl rfl rfl

theorem Stage.advance_waits {m : Memory} {stage : Stage} (waits : stage.advance m = .waits) :
    stage = .idle ∨ m.memoryS ≤ 0 ∧ stage.holds = false := by
  have shut : ∀ goal, enter m goal = .waits → m.memoryS ≤ 0 := by
    intro goal waits
    rw [enter] at waits
    split_ifs at waits with vacant
    omega
  cases stage with
  | idle => exact .inl rfl
  | choosing | replacing | searching | releasing => exact .inr ⟨shut _ waits, rfl⟩
  | opening mem => cases mem <;> cases waits
  | testing | sweeping | scanning | marking | freeing =>
      simp only [advance] at waits
      split_ifs at waits
  | _ => cases waits

namespace Callers

open Monitor

variable {ι : Type} [DecidableEq ι] {callers after : Callers ι}

theorem act_run {caller : ι} (acts : callers.act (.run caller) = some after) :
    ∃ memory next, (callers.stages caller).advance callers.heap.memory = .moves memory next ∧
      after =
        { heap :=
            { memory := memory
              live := (callers.stages caller).settle callers.heap.memory callers.heap.live }
          stages := Function.update callers.stages caller next
          failures := callers.failures + (callers.stages caller).surplus } := by
  simp only [act] at acts
  split at acts
  · rename_i memory next moves
    exact ⟨memory, next, moves, (Option.some.inj acts).symm⟩
  · cases acts
  · cases acts

variable [Fintype ι]

/-- The semaphore and the callers that are inside make up the one permit and the permits that failed
calls have added. -/
structure LockKept (callers : Callers ι) : Prop where
  count : callers.heap.memory.memoryS + holding Stage.holds callers.stages = 1 + callers.failures
  sign : 0 ≤ callers.heap.memory.memoryS

theorem LockKept.place (kept : LockKept callers) {caller : ι} {stage : Stage}
    (idle : callers.stages caller = .idle) (outside : stage.holds = false) :
    LockKept (callers.place caller stage) := by
  have same := @holding_update _ _ _ Stage.holds callers.stages caller _ stage
  have before : (callers.stages caller).holds = false := by rw [idle]; rfl
  rw [outside, before] at same
  refine ⟨?_, kept.sign⟩
  have count := kept.count
  simp only [Callers.place]
  omega

theorem LockKept.step (kept : LockKept callers) {event : CallEvent ι} (owns : callers.Owns event)
    (acts : callers.act event = some after) : LockKept after := by
  cases event with
  | allocate caller bytes =>
      rw [act] at acts
      split_ifs at acts <;> cases acts
      · exact kept
      · exact kept.place owns.1 rfl
  | deallocate caller mem =>
      cases acts
      exact kept.place owns.1 rfl
  | store address value =>
      cases acts
      exact ⟨kept.count, kept.sign⟩
  | run caller =>
      obtain ⟨memory, next, moves, rfl⟩ := act_run acts
      have balanced := Stage.advance_balanced moves
      have same := @holding_update _ _ _ Stage.holds callers.stages caller _ next
      have count := kept.count
      have balance := balanced.balance
      refine ⟨?_, balanced.sign kept.sign⟩
      dsimp only
      omega

theorem Reaches.lockKept {hand memSize : Nat} {bytes : Nat → UInt8}
    (reached : Reaches (initMemory hand bytes memSize) Owns callers) : LockKept callers := by
  induction reached with
  | start =>
      have vacant : holding Stage.holds (fun _ : ι => Stage.idle) = 0 :=
        holding_eq_zero.mpr fun _ => rfl
      refine ⟨?_, by simp [initMemory]⟩
      dsimp only
      rw [vacant]
      rfl
  | step before allowed acts ih => exact ih.step allowed acts

def Runs (callers : Callers ι) (caller : ι) : Prop :=
  callers.stages caller ≠ .idle ∧
    (callers.stages caller).advance callers.heap.memory ≠ .waits

omit [DecidableEq ι] in
theorem LockKept.progress (kept : LockKept callers) {caller : ι}
    (busy : callers.stages caller ≠ .idle) : ∃ other, callers.Runs other := by
  by_contra stuck
  simp only [Runs, not_exists, not_and, not_not] at stuck
  have waiting := (Stage.advance_waits (stuck caller busy)).resolve_left busy
  have vacant : holding Stage.holds callers.stages = 0 := by
    refine holding_eq_zero.mpr fun other => ?_
    by_cases idle : callers.stages other = .idle
    · rw [idle]
      rfl
    · exact ((Stage.advance_waits (stuck other idle)).resolve_left idle).2
  have count := kept.count
  omega

end Callers

/-- Whatever the callers do and in whatever order: no more of them are inside `memory_s` than one and
the calls that have failed, so none are together before the first failure, and some caller can always
go on. -/
theorem pool_lock_excludes {ι : Type} [Fintype ι] [DecidableEq ι] (hand : Nat) (bytes : Nat → UInt8)
    (memSize : Nat) (callers : Callers ι)
    (reached : Callers.Reaches (initMemory hand bytes memSize) Callers.Owns callers) :
    callers.heap.memory.memoryS + Monitor.holding Stage.holds callers.stages =
        1 + callers.failures ∧
      0 ≤ callers.heap.memory.memoryS ∧
      (callers.failures = 0 → ∀ first second, (callers.stages first).holds = true →
        (callers.stages second).holds = true → first = second) ∧
      ((∃ caller, callers.stages caller ≠ .idle) → ∃ caller, callers.Runs caller) := by
  have kept := reached.lockKept
  refine ⟨kept.count, kept.sign, fun clean first second inside also => ?_,
    fun ⟨caller, busy⟩ => kept.progress busy⟩
  have count := kept.count
  have sign := kept.sign
  exact Monitor.alone (by omega) inside also

def Callers.Served {ι : Type} (callers : Callers ι) (event : CallEvent ι) : Prop :=
  callers.Owns event ∧
    ∀ caller bytes, event = .run caller → callers.stages caller = .testing bytes →
      numPages bytes ≤ callers.heap.memory.freePageNum

theorem Callers.Reaches.owned {ι : Type} [DecidableEq ι] {start : Memory} {callers : Callers ι}
    (reached : Callers.Reaches start Callers.Served callers) :
    Callers.Reaches start Callers.Owns callers := by
  induction reached with
  | start => exact .start
  | step before allowed acts ih => exact ih.step allowed.1 acts

theorem Callers.served_run {ι : Type} {callers : Callers ι} (caller : ι)
    (enough : ∀ bytes, callers.stages caller = .testing bytes →
      numPages bytes ≤ callers.heap.memory.freePageNum) : callers.Served (.run caller) := by
  refine ⟨trivial, fun other bytes same => ?_⟩
  cases same
  exact enough bytes

theorem Callers.served_allocate {ι : Type} {callers : Callers ι} (caller : ι) {bytes : Nat}
    (idle : callers.stages caller = .idle) (small : bytes < u32Range) :
    callers.Served (.allocate caller bytes) :=
  ⟨⟨idle, small⟩, fun other bytes same => by cases same⟩

def outside : Callers Bool :=
  { heap := { memory := initMemory 0 (fun _ => 0) 32768, live := [] }
    stages := fun _ => .idle
    failures := 0 }

def inside : Callers Bool :=
  let events : List (CallEvent Bool) :=
    [.allocate false 100, .allocate true 100, .run true, .run false, .run false, .run false,
      .run false, .run false, .run false]
  events.foldl (fun callers event => (callers.act event).getD callers) outside

theorem inside_reached :
    Callers.Reaches (initMemory 0 (fun _ => 0) 32768) Callers.Served inside := by
  have small : 100 < u32Range := by decide
  have first := @Callers.Reaches.step Bool _ (initMemory 0 (fun _ => 0) 32768) Callers.Served _ _ _
    .start (Callers.served_allocate false rfl small) rfl
  have second := first.step (Callers.served_allocate true rfl small) rfl
  have third := second.step (Callers.served_run true fun bytes same => by cases same; decide) rfl
  have tested := third.step (Callers.served_run false fun bytes same => by cases same; decide) rfl
  have entered := tested.step (Callers.served_run false fun bytes same => by cases same) rfl
  have scanned := entered.step (Callers.served_run false fun bytes same => by cases same) rfl
  have chosen := scanned.step (Callers.served_run false fun bytes same => by cases same) rfl
  have marked := chosen.step (Callers.served_run false fun bytes same => by cases same) rfl
  exact marked.step (Callers.served_run false fun bytes same => by cases same) rfl

theorem pool_lock_excludes_two : inside.stages false = .taken ∧
    (inside.stages true).holds = false ∧ ∃ caller, inside.Runs caller := by
  have owned : Callers.Reaches (initMemory 0 (fun _ => 0) 32768) Callers.Owns inside :=
    inside_reached.owned
  have facts := pool_lock_excludes 0 (fun _ => 0) 32768 inside owned
  refine ⟨by decide, ?_, facts.2.2.2 ⟨true, by decide⟩⟩
  by_contra also
  have same := facts.2.2.1 rfl false true (by decide) (by simpa using also)
  cases same

end Gaveta
