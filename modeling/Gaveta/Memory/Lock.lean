import Gaveta.Memory.Replacement

/-! The semaphore of the pool over the calls of one thread. -/

namespace Gaveta

inductive SemOp where
  | wait
  | post
deriving DecidableEq

def SemOp.apply (value : Int) : SemOp → Int
  | .wait => value - 1
  | .post => value + 1

def semValues (value : Int) : List SemOp → List Int
  | [] => []
  | op :: ops => op.apply value :: semValues (op.apply value) ops

def semAfter (value : Int) (ops : List SemOp) : Int := ops.foldl SemOp.apply value

def secondChanceOps : List SemOp := [.wait, .post]

def replaceOps : Nat → Memory → List SemOp
  | 0, _ => []
  | missing + 1, m =>
      let swept := secondChance m
      match swept.2 with
      -- `second_chance` has given the semaphore back
      | none => secondChanceOps ++ [.post]
      | some page =>
          secondChanceOps ++ [.wait, .post] ++
            replaceOps missing (semPost (handOver (semWait swept.1) page))

def allocateOps (m : Memory) (bytes : Nat) : List SemOp :=
  if bytes = 0 then []
  else if m.size ≤ bytes then []
  else
    let missing := numPages bytes - m.freePageNum
    if (replacePages missing m).2 = false then replaceOps missing m
    else replaceOps missing m ++ [.wait, .post]

def deallocateOps : List SemOp := [.wait, .post]

def regionRoom (m : Memory) (region : Nat) : Nat :=
  (readU32 m.pool (getHeader region + 4) * pageSize + u32Range - allocHeaderSize) % u32Range

def reallocateSize (m : Memory) (region bytes : Nat) : Nat :=
  (regionRoom m region + bytes) % u32Range

def copyBytes (pool : Nat → UInt8) (target source count : Nat) (i : Nat) : UInt8 :=
  if target ≤ i ∧ i < target + count then pool (source + (i - target)) else pool i

/-- What `g_reallocate` does with the answer of `g_allocate`. -/
def moveRegion (m : Memory) (region : Nat) : Memory × Option Nat → Memory × Option Nat
  | (after, none) => (after, none)
  | (after, some buffer) =>
      let copied := copyBytes after.pool buffer region (regionRoom m region)
      (gDeallocate { after with pool := copied } (some region), some buffer)

def gReallocate (m : Memory) (currRegion : Option Nat) (bytes : Nat) :
    Option (Memory × Option Nat) :=
  match currRegion with
  | none => some (m, none)
  | some region => (gAllocate m (reallocateSize m region bytes)).map (moveRegion m region)

def serves (m : Memory) (bytes : Nat) : Bool := ((gAllocate m bytes).bind Prod.snd).isSome

def reallocateOps (m : Memory) (currRegion : Option Nat) (bytes : Nat) : List SemOp :=
  match currRegion with
  | none => []
  | some region =>
      if serves m (reallocateSize m region bytes) then
        allocateOps m (reallocateSize m region bytes) ++ deallocateOps
      else allocateOps m (reallocateSize m region bytes)

inductive Request where
  | allocate (bytes : Nat)
  | reallocate (currRegion : Option Nat) (bytes : Nat)
  | deallocate (mem : Option Nat)

namespace Request

def call (m : Memory) : Request → Option Memory
  | allocate bytes => (gAllocate m bytes).map Prod.fst
  | reallocate currRegion bytes => (gReallocate m currRegion bytes).map Prod.fst
  | deallocate mem => some (gDeallocate m mem)

def ops (m : Memory) : Request → List SemOp
  | allocate bytes => allocateOps m bytes
  | reallocate currRegion bytes => reallocateOps m currRegion bytes
  | deallocate _ => deallocateOps

def asked (m : Memory) : Request → Nat
  | allocate bytes => bytes
  | reallocate none _ => 0
  | reallocate (some region) bytes => reallocateSize m region bytes
  | deallocate _ => 0

end Request

/-- Each wait is followed by its post. -/
inductive Paired : List SemOp → Prop
  | nil : Paired []
  | cons {ops : List SemOp} (rest : Paired ops) : Paired (.wait :: .post :: ops)

namespace Paired

variable {ops more : List SemOp}

theorem append (paired : Paired ops) (later : Paired more) : Paired (ops ++ more) := by
  induction paired with
  | nil => exact later
  | cons _ ih => exact .cons ih

theorem one : Paired [.wait, .post] := .cons .nil

theorem after (paired : Paired ops) (value : Int) : semAfter value ops = value := by
  induction paired with
  | nil => rfl
  | cons _ ih =>
      have back : SemOp.post.apply (SemOp.wait.apply value) = value := by
        simp [SemOp.apply]
      rw [semAfter, List.foldl_cons, List.foldl_cons, back]
      exact ih

theorem values (paired : Paired ops) : ∀ value ∈ semValues 1 ops, value = 0 ∨ value = 1 := by
  induction paired with
  | nil => simp [semValues]
  | cons _ ih =>
      intro value member
      simp only [semValues, SemOp.apply, List.mem_cons] at member
      rcases member with rfl | rfl | member
      · exact Or.inl rfl
      · exact Or.inr rfl
      · exact ih value member

end Paired

theorem semAfter_append (value : Int) (ops more : List SemOp) :
    semAfter value (ops ++ more) = semAfter (semAfter value ops) more := List.foldl_append

theorem semAfter_mem {value : Int} {ops : List SemOp} (op : SemOp) :
    semAfter value (ops ++ [op]) ∈ semValues value (ops ++ [op]) := by
  induction ops generalizing value with
  | nil => simp [semAfter, semValues]
  | cons first ops ih => exact List.mem_cons_of_mem _ ih

def Overposted (ops : List SemOp) : Prop := ∃ pairs, Paired pairs ∧ ops = pairs ++ [.post]

theorem Overposted.two {ops : List SemOp} (posted : Overposted ops) : 2 ∈ semValues 1 ops := by
  obtain ⟨pairs, paired, rfl⟩ := posted
  have last := @semAfter_mem 1 pairs .post
  rwa [semAfter_append, paired.after] at last

theorem replaceOps_spec (missing : Nat) (m : Memory) :
    (replacePages missing m).1.memoryS = semAfter m.memoryS (replaceOps missing m) ∧
      if (replacePages missing m).2 then Paired (replaceOps missing m)
      else Overposted (replaceOps missing m) := by
  induction missing generalizing m with
  | zero => exact ⟨rfl, .nil⟩
  | succ missing ih =>
      have back : (secondChance m).1.memoryS = m.memoryS := by
        simp [secondChance, semPost, semWait]
      rw [replacePages, replaceOps]
      cases found : (secondChance m).2 with
      | none =>
          refine ⟨?_, [.wait, .post], .one, rfl⟩
          simp [semPost, back, semAfter, secondChanceOps, SemOp.apply]
      | some page =>
          obtain ⟨value, rest⟩ := ih (semPost (handOver (semWait (secondChance m).1) page))
          have same : (semPost (handOver (semWait (secondChance m).1) page)).memoryS =
              m.memoryS := by
            simp [semPost, handOver, semWait, back]
          have first : Paired (secondChanceOps ++ [.wait, .post]) := .cons .one
          dsimp only
          refine ⟨?_, ?_⟩
          · rw [value, same, semAfter_append, first.after]
          · split
            · rename_i done
              rw [if_pos done] at rest
              exact first.append rest
            · rename_i gaveUp
              rw [if_neg gaveUp] at rest
              obtain ⟨pairs, paired, listed⟩ := rest
              exact ⟨_, first.append paired, by simp [listed]⟩

def SweepsFind (m : Memory) (bytes : Nat) : Prop :=
  bytes ≠ 0 → bytes < m.size →
    ∀ sweep < numPages bytes - m.freePageNum, ¬m.clock.GivesUp sweep

section Calls

variable {m next : Memory} {bytes : Nat}

theorem allocateOps_spec (valid : m.clock.Valid) (bytes : Nat) :
    (SweepsFind m bytes ∧ Paired (allocateOps m bytes)) ∨
      (¬SweepsFind m bytes ∧ Overposted (allocateOps m bytes)) := by
  by_cases zero : bytes = 0
  · left
    rw [allocateOps, if_pos zero]
    exact ⟨fun asked => absurd zero asked, .nil⟩
  by_cases large : m.size ≤ bytes
  · left
    rw [allocateOps, if_neg zero, if_pos large]
    exact ⟨fun _ fits => absurd large (by omega), .nil⟩
  have find : SweepsFind m bytes ↔
      (replacePages (numPages bytes - m.freePageNum) m).2 = true := by
    rw [replacePages_done_iff valid]
    exact ⟨fun find => find zero (by omega), fun runs _ _ => runs⟩
  have pairs := (replaceOps_spec (numPages bytes - m.freePageNum) m).2
  rw [allocateOps, if_neg zero, if_neg large, find]
  dsimp only
  cases done : (replacePages (numPages bytes - m.freePageNum) m).2 with
  | true =>
      rw [done] at pairs
      exact Or.inl ⟨rfl, Paired.append pairs .one⟩
  | false =>
      rw [done] at pairs
      exact Or.inr ⟨by simp, pairs⟩

theorem valid_of_eq {other : Memory} (valid : m.clock.Valid) (len : other.len = m.len)
    (hand : other.hand = m.hand) : other.clock.Valid := by
  refine ⟨?_, ?_⟩
  · have one := valid.one
    simp only [Memory.clock] at one ⊢
    omega
  · have inside := valid.hand
    simp only [Memory.clock] at inside ⊢
    omega

theorem gAllocate_lock (valid : m.clock.Valid) {answer : Option Nat}
    (returned : gAllocate m bytes = some (next, answer)) :
    next.memoryS = semAfter m.memoryS (allocateOps m bytes) ∧ next.clock.Valid ∧
      (answer.isSome → SweepsFind m bytes) := by
  by_cases zero : bytes = 0
  · subst zero
    obtain ⟨rfl, rfl⟩ := Prod.mk.inj (Option.some.inj returned)
    exact ⟨rfl, valid, fun given => by cases given⟩
  by_cases large : m.size ≤ bytes
  · rw [gAllocate_refused (Or.inr large)] at returned
    obtain ⟨rfl, rfl⟩ := Prod.mk.inj (Option.some.inj returned)
    rw [allocateOps, if_neg zero, if_pos large]
    exact ⟨rfl, valid, fun given => by cases given⟩
  have value := (replaceOps_spec (numPages bytes - m.freePageNum) m).1
  have clock : (replacePages (numPages bytes - m.freePageNum) m).1.clock.Valid := by
    have replaced := replacePages_spec valid (numPages bytes - m.freePageNum)
    generalize replacePages (numPages bytes - m.freePageNum) m = result at replaced ⊢
    cases replaced with
    | done _ frees => exact frees.valid
    | gaveUp _ _ frees => exact frees.valid
  rw [gAllocate_asked zero (not_le.mp large)] at returned
  rw [allocateOps, if_neg zero, if_neg large]
  dsimp only at returned ⊢
  cases done : (replacePages (numPages bytes - m.freePageNum) m).2 with
  | false =>
      rw [done] at returned
      obtain ⟨rfl, rfl⟩ := Prod.mk.inj (Option.some.inj returned)
      exact ⟨value, clock, fun given => by cases given⟩
  | true =>
      have find : SweepsFind m bytes := fun _ _ => (replacePages_done_iff valid _).mp done
      rw [done] at returned
      simp only [Bool.true_eq_false, ↓reduceIte] at returned ⊢
      rw [semAfter_append, ← value, Paired.one.after]
      obtain ⟨i, -, found⟩ := Option.map_eq_some_iff.mp returned
      obtain ⟨rfl, rfl⟩ := Prod.mk.inj found
      refine ⟨?_, valid_of_eq clock rfl rfl, fun _ => find⟩
      simp [semPost, takePages, semWait]

theorem gDeallocate_lock (m : Memory) (mem : Option Nat) :
    (gDeallocate m mem).memoryS = m.memoryS ∧ (gDeallocate m mem).len = m.len ∧
      (gDeallocate m mem).hand = m.hand := by
  cases mem <;> simp [gDeallocate, semPost, semWait]

end Calls

namespace Request

variable {m next : Memory}

theorem ops_spec (valid : m.clock.Valid) (request : Request) :
    (SweepsFind m (request.asked m) ∧ Paired (request.ops m)) ∨
      (¬SweepsFind m (request.asked m) ∧ Overposted (request.ops m)) := by
  have noRequest : SweepsFind m 0 := fun asked => absurd rfl asked
  cases request with
  | allocate bytes => exact allocateOps_spec valid bytes
  | deallocate mem => exact Or.inl ⟨noRequest, .one⟩
  | reallocate currRegion bytes =>
      cases currRegion with
      | none => exact Or.inl ⟨noRequest, .nil⟩
      | some region =>
          rw [ops, asked, reallocateOps]
          generalize reallocateSize m region bytes = size
          have allocates := allocateOps_spec valid size
          split
          · rename_i served
            obtain ⟨buffer, answer⟩ := Option.isSome_iff_exists.mp served
            obtain ⟨⟨after, _⟩, returned, rfl⟩ := Option.bind_eq_some_iff.mp answer
            have find := (gAllocate_lock valid returned).2.2 rfl
            rcases allocates with ⟨_, paired⟩ | ⟨gaveUp, _⟩
            · exact Or.inl ⟨find, paired.append .one⟩
            · exact absurd find gaveUp
          · exact allocates

theorem call_lock (valid : m.clock.Valid) {request : Request} (returned : request.call m = some next) :
    next.memoryS = semAfter m.memoryS (request.ops m) ∧ next.clock.Valid := by
  cases request with
  | allocate bytes =>
      obtain ⟨⟨after, answer⟩, allocated, rfl⟩ := Option.map_eq_some_iff.mp returned
      exact ⟨(gAllocate_lock valid allocated).1, (gAllocate_lock valid allocated).2.1⟩
  | deallocate mem =>
      obtain rfl := Option.some.inj returned
      obtain ⟨value, len, hand⟩ := gDeallocate_lock m mem
      exact ⟨by rw [value, ops, deallocateOps, Paired.one.after], valid_of_eq valid len hand⟩
  | reallocate currRegion bytes =>
      cases currRegion with
      | none =>
          obtain rfl := Option.some.inj returned
          exact ⟨rfl, valid⟩
      | some region =>
          obtain ⟨result, reallocated, rfl⟩ := Option.map_eq_some_iff.mp returned
          rw [gReallocate] at reallocated
          rw [ops, reallocateOps]
          generalize reallocateSize m region bytes = size at reallocated ⊢
          obtain ⟨⟨middle, answer⟩, allocated, rfl⟩ := Option.map_eq_some_iff.mp reallocated
          have lock := gAllocate_lock valid allocated
          cases answer with
          | none =>
              have refused : serves m size = false := by simp [serves, allocated]
              rw [refused, if_neg Bool.false_ne_true, moveRegion]
              exact ⟨lock.1, lock.2.1⟩
          | some buffer =>
              have served : serves m size = true := by simp [serves, allocated]
              obtain ⟨value, len, hand⟩ := gDeallocate_lock
                { middle with pool := copyBytes middle.pool buffer region (regionRoom m region) }
                (some region)
              rw [served, if_pos rfl, moveRegion]
              refine ⟨?_, valid_of_eq lock.2.1 len hand⟩
              rw [value, semAfter_append, deallocateOps, Paired.one.after]
              exact lock.1

end Request

/-- The lock is free around the call, and has the value 0 or 1 within it. -/
structure LockBalanced (m : Memory) (request : Request) : Prop where
  before : m.memoryS = 1
  during : ∀ value ∈ semValues m.memoryS (request.ops m), value = 0 ∨ value = 1
  after : ∀ next, request.call m = some next → next.memoryS = 1

def RunBalanced (m : Memory) : List Request → Prop
  | [] => m.memoryS = 1
  | request :: rest =>
      LockBalanced m request ∧ ∀ next, request.call m = some next → RunBalanced next rest

def RunSweepsFind (m : Memory) : List Request → Prop
  | [] => True
  | request :: rest =>
      SweepsFind m (request.asked m) ∧
        ∀ next, request.call m = some next → RunSweepsFind next rest

theorem lockBalanced_iff {m : Memory} (valid : m.clock.Valid) (free : m.memoryS = 1)
    (request : Request) : LockBalanced m request ↔ SweepsFind m (request.asked m) := by
  rcases request.ops_spec valid with ⟨find, paired⟩ | ⟨gaveUp, posted⟩
  · refine iff_of_true ⟨free, ?_, fun next returned => ?_⟩ find
    · rw [free]
      exact paired.values
    · rw [(Request.call_lock valid returned).1, paired.after, free]
  · refine iff_of_false (fun balanced => ?_) gaveUp
    have during := balanced.during 2
    rw [free] at during
    exact absurd (during posted.two) (by decide)

theorem runBalanced_iff {m : Memory} (valid : m.clock.Valid) (free : m.memoryS = 1)
    (requests : List Request) : RunBalanced m requests ↔ RunSweepsFind m requests := by
  induction requests generalizing m with
  | nil => exact iff_of_true free trivial
  | cons request rest ih =>
      rw [RunBalanced, RunSweepsFind, lockBalanced_iff valid free]
      refine and_congr_right fun find => forall_congr' fun next => ?_
      refine imp_congr_right fun returned => ?_
      obtain ⟨value, validNext⟩ := Request.call_lock valid returned
      refine ih validNext ?_
      exact ((lockBalanced_iff valid free request).mpr find).after next returned

def runRequests (m : Memory) (requests : List Request) : Option Memory :=
  requests.foldlM Request.call m

theorem RunBalanced.runRequests {m last : Memory} {requests : List Request}
    (balanced : RunBalanced m requests) (run : runRequests m requests = some last) :
    last.memoryS = 1 := by
  induction requests generalizing m with
  | nil =>
      obtain rfl := Option.some.inj run
      exact balanced
  | cons request rest ih =>
      obtain ⟨next, returned, later⟩ := Option.bind_eq_some_iff.mp run
      exact ih (balanced.2 next returned) later

theorem pool_lock_balanced_iff (hand : Nat) (bytes : Nat → UInt8) (memSize : Nat)
    (inside : hand < (initMemory hand bytes memSize).len) (requests : List Request) :
    RunBalanced (initMemory hand bytes memSize) requests ↔
      RunSweepsFind (initMemory hand bytes memSize) requests := by
  have one : 1 ≤ (initMemory hand bytes memSize).len := by omega
  have valid : (initMemory hand bytes memSize).clock.Valid := ⟨one, inside⟩
  exact runBalanced_iff valid rfl requests

/-- The first block takes all 16 pages, so that the second request replaces one. -/
theorem pool_lock_balanced_iff_replaced :
    RunBalanced (initMemory 0 (fun _ => 0) 16385) [.allocate 16376, .allocate 100] := by
  refine (pool_lock_balanced_iff 0 (fun _ => 0) 16385 (by decide) _).mpr ⟨?_, fun next full => ?_⟩
  · exact fun _ _ sweep few => absurd few
      (by simp [Request.asked, numPages, initMemory, allocHeaderSize, pageSize])
  · have taken : ((Request.allocate 16376).call (initMemory 0 (fun _ => 0) 16385)).map
        (fun m => (m.freePageNum, m.hand)) = some (0, 0) := by
      decide +kernel
    rw [full, Option.map_some, Option.some.injEq, Prod.mk.injEq] at taken
    refine ⟨fun _ _ sweep few gives => ?_, fun _ _ => trivial⟩
    have first : sweep = 0 := by
      simp only [Request.asked, numPages, allocHeaderSize, pageSize, taken.1] at few
      omega
    subst first
    have valid : (initMemory 0 (fun _ => 0) 16385).clock.Valid := ⟨by decide, by decide⟩
    exact ((Clock.givesUp_zero (Request.call_lock valid full).2).mp gives).1 taken.2

/-- A pool of 16 pages with the hand at page 1 and every page in use: the sweep of the last request
gives up. -/
def overpostingRun : List Request :=
  [.allocate 16376, .allocate 100, .deallocate (some 8), .allocate 16376, .allocate 100]

theorem overposting_run_unbalanced :
    ¬RunBalanced (initMemory 0 (fun _ => 0) 16385) overpostingRun := by
  intro balanced
  have two : (runRequests (initMemory 0 (fun _ => 0) 16385) overpostingRun).map Memory.memoryS =
      some 2 := by
    decide +kernel
  obtain ⟨last, run, value⟩ := Option.map_eq_some_iff.mp two
  rw [balanced.runRequests run] at value
  cases value

end Gaveta
