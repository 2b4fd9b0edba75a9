import Mathlib.Data.Nat.Nth
import Mathlib.Data.Nat.ModEq
import Mathlib.Tactic.Common

/-!
The clock of the second-chance rule.  A sweep passes the used pages in clock order, clears their
bits and rests at the first unused one; the next sweep starts behind it.
-/

structure Clock where
  len : Nat
  hand : Nat
  used : Nat → Bool

namespace Clock

def page (clock : Clock) (t : Nat) : Nat := (clock.hand + t) % clock.len

/-- Whether sweeps from this state rest at step `t`: in the second round every bit is clear. -/
def Rests (clock : Clock) (t : Nat) : Prop := clock.len ≤ t ∨ clock.used (clock.page t) = false

instance (clock : Clock) : DecidablePred clock.Rests := fun t =>
  inferInstanceAs (Decidable (clock.len ≤ t ∨ clock.used (clock.page t) = false))

structure Valid (clock : Clock) : Prop where
  one : 1 ≤ clock.len
  hand : clock.hand < clock.len

structure Passes (clock : Clock) (count : Nat) (next : Clock) : Prop where
  len : next.len = clock.len
  hand : next.hand = clock.page (count + 1)
  used : ∀ p, next.used p = true ↔ clock.used p = true ∧ ∀ t < count, clock.page t ≠ p

structure First (clock : Clock) (stop : Nat) : Prop where
  rests : clock.Rests stop
  before : ∀ t < stop, ¬clock.Rests t

variable {clock next : Clock} {stop : Nat}

theorem page_zero (valid : clock.Valid) : clock.page 0 = clock.hand := by
  rw [page, Nat.add_zero, Nat.mod_eq_of_lt valid.hand]

theorem page_lt (valid : clock.Valid) (t : Nat) : clock.page t < clock.len :=
  Nat.mod_lt _ valid.one

theorem page_add_len (clock : Clock) (t : Nat) : clock.page (clock.len + t) = clock.page t := by
  rw [page, page, Nat.add_comm clock.len, ← Nat.add_assoc, Nat.add_mod_right]

theorem page_last (valid : clock.Valid) (hand : clock.hand ≠ 0) :
    clock.page (clock.len - 1) = clock.hand - 1 := by
  have bounds := valid.hand
  have shifted : clock.hand + (clock.len - 1) = clock.hand - 1 + clock.len := by omega
  rw [page, shifted, Nat.add_mod_right, Nat.mod_eq_of_lt (by omega)]

theorem page_injective {s t : Nat} (left : s < clock.len) (right : t < clock.len)
    (same : clock.page s = clock.page t) : s = t := by
  have equal : s % clock.len = t % clock.len := Nat.ModEq.add_left_cancel' clock.hand same
  rwa [Nat.mod_eq_of_lt left, Nat.mod_eq_of_lt right] at equal

theorem First.le (first : clock.First stop) : stop ≤ clock.len := by
  by_contra beyond
  exact first.before clock.len (by omega) (Or.inl le_rfl)

theorem First.unique {other : Nat} (first : clock.First stop) (again : clock.First other) :
    stop = other := by
  rcases lt_trichotomy stop other with less | same | more
  · exact absurd first.rests (again.before stop less)
  · exact same
  · exact absurd again.rests (first.before other more)

theorem Passes.valid (passes : clock.Passes stop next) (valid : clock.Valid) : next.Valid := by
  refine ⟨passes.len ▸ valid.one, ?_⟩
  rw [passes.hand, passes.len]
  exact page_lt valid (stop + 1)

theorem Passes.page (passes : clock.Passes stop next) (t : Nat) :
    next.page t = clock.page (stop + 1 + t) := by
  rw [Clock.page, Clock.page, passes.hand, passes.len, Clock.page, Nat.mod_add_mod, Nat.add_assoc]

theorem Passes.rests (passes : clock.Passes stop next) (first : clock.First stop)
    (valid : clock.Valid) (t : Nat) : next.Rests t ↔ clock.Rests (stop + 1 + t) := by
  have one := valid.one
  have bound := first.le
  rw [Rests, Rests, passes.len, passes.page, ← Bool.not_eq_true, passes.used, ← Bool.not_eq_true]
  by_cases far : clock.len ≤ t
  · exact iff_of_true (Or.inl far) (Or.inl (by omega))
  by_cases again : clock.len ≤ stop + 1 + t
  · refine iff_of_true (Or.inr fun ⟨isUsed, unpassed⟩ => ?_) (Or.inl again)
    obtain ⟨index, same⟩ := Nat.exists_eq_add_of_le again
    rw [same, page_add_len] at isUsed unpassed
    rcases Nat.lt_or_eq_of_le (by omega : index ≤ stop) with passed | rfl
    · exact unpassed index passed rfl
    · rcases first.rests with round | unused
      · have start := unpassed 0 (by omega)
        rw [← page_add_len clock 0, Nat.add_zero, ← (by omega : index = clock.len)] at start
        exact start rfl
      · simp [unused] at isUsed
  · simp only [far, again, false_or, not_iff_not, and_iff_left_iff_imp]
    intro _ s passed same
    have equal := page_injective (by omega) (by omega) same
    omega

/-- The pages handed over by the first `sweeps` sweeps: those behind the pages where they rest. -/
def HandedOver (clock : Clock) (sweeps p : Nat) : Prop :=
  ∃ t, clock.Rests t ∧ Nat.count clock.Rests t < sweeps ∧ p = clock.page (t + 1)

/-- Sweep number `sweep` starts at a page other than page 0 and finds no unused page before it
comes to the last one, which it does not look at. -/
def GivesUp (clock : Clock) (sweep : Nat) : Prop :=
  ∃ t, Nat.count clock.Rests t = sweep ∧ (t = 0 ∨ clock.Rests (t - 1)) ∧ clock.page t ≠ 0 ∧
    ∀ d < clock.len - 1, ¬clock.Rests (t + d)

theorem First.count (first : clock.First stop) {t : Nat} (bound : t ≤ stop) :
    Nat.count clock.Rests t = 0 :=
  Nat.count_iff_forall_not.mpr fun s less => first.before s (by omega)

section Next

variable (passes : clock.Passes stop next) (first : clock.First stop) (valid : clock.Valid)

include passes first valid

theorem Passes.count (t : Nat) :
    Nat.count clock.Rests (stop + 1 + t) = Nat.count next.Rests t + 1 := by
  have later : (fun k => clock.Rests (stop + 1 + k)) = next.Rests := by
    funext k
    exact propext (passes.rests first valid k).symm
  rw [Nat.count_add, Nat.count_succ, first.count le_rfl, if_pos first.rests, Nat.zero_add,
    Nat.add_comm]
  simp only [later]

theorem Passes.handedOver_succ (sweeps p : Nat) :
    clock.HandedOver (sweeps + 1) p ↔ p = clock.page (stop + 1) ∨ next.HandedOver sweeps p := by
  constructor
  · rintro ⟨t, rests, few, rfl⟩
    rcases Nat.lt_trichotomy t stop with less | rfl | more
    · exact absurd rests (first.before t less)
    · exact Or.inl rfl
    · obtain ⟨rest, rfl⟩ : ∃ rest, t = stop + 1 + rest := Nat.exists_eq_add_of_le more
      rw [passes.count first valid] at few
      exact Or.inr ⟨rest, (passes.rests first valid rest).mpr rests, by omega,
        (passes.page (rest + 1)).symm⟩
  · rintro (rfl | ⟨t, rests, few, rfl⟩)
    · exact ⟨stop, first.rests, by rw [first.count le_rfl]; omega, rfl⟩
    · refine ⟨stop + 1 + t, (passes.rests first valid t).mp rests, ?_, passes.page (t + 1)⟩
      rw [passes.count first valid]
      omega

theorem Passes.givesUp_succ (sweep : Nat) : clock.GivesUp (sweep + 1) ↔ next.GivesUp sweep := by
  constructor
  · rintro ⟨t, count, start, page, quiet⟩
    have behind : stop < t := by
      by_contra early
      rw [first.count (by omega)] at count
      omega
    obtain ⟨rest, rfl⟩ : ∃ rest, t = stop + 1 + rest := Nat.exists_eq_add_of_le behind
    rw [passes.count first valid] at count
    refine ⟨rest, by omega, ?_, by rwa [passes.page], fun d less => ?_⟩
    · cases rest with
      | zero => exact Or.inl rfl
      | succ rest =>
          refine Or.inr ((passes.rests first valid _).mpr ?_)
          exact start.resolve_left (by omega)
    · rw [passes.len] at less
      rw [passes.rests first valid, ← Nat.add_assoc]
      exact quiet d less
  · rintro ⟨t, count, start, page, quiet⟩
    refine ⟨stop + 1 + t, by rw [passes.count first valid]; omega, Or.inr ?_,
      by rwa [passes.page] at page, fun d less => ?_⟩
    · rcases start with rfl | rests
      · exact first.rests
      · cases t with
        | zero => exact first.rests
        | succ t => exact (passes.rests first valid t).mp rests
    · rw [Nat.add_assoc, ← passes.rests first valid]
      exact quiet d (by rwa [passes.len])

end Next

theorem givesUp_zero (valid : clock.Valid) :
    clock.GivesUp 0 ↔ clock.hand ≠ 0 ∧ ∀ d < clock.len - 1, ¬clock.Rests d := by
  constructor
  · rintro ⟨t, count, start, page, quiet⟩
    obtain rfl : t = 0 := by
      rcases start with zero | rests
      · exact zero
      · by_contra positive
        exact Nat.count_iff_forall_not.mp count (t - 1) (by omega) rests
    rw [page_zero valid] at page
    exact ⟨page, by simpa using quiet⟩
  · rintro ⟨hand, quiet⟩
    exact ⟨0, Nat.count_zero _, Or.inl rfl, by rwa [page_zero valid], by simpa using quiet⟩

theorem not_handedOver_zero (p : Nat) : ¬clock.HandedOver 0 p := by
  rintro ⟨t, _, few, _⟩
  omega

noncomputable def victim (clock : Clock) (sweep : Nat) : Nat :=
  clock.page (Nat.nth clock.Rests sweep + 1)

theorem rests_infinite (clock : Clock) : (Set.ofPred clock.Rests).Infinite :=
  Set.infinite_of_not_bddAbove fun ⟨bound, above⟩ => by
    have member : max clock.len (bound + 1) ∈ Set.ofPred clock.Rests :=
      Or.inl (Nat.le_max_left ..)
    have small := above member
    omega

theorem handedOver_iff (sweeps p : Nat) :
    clock.HandedOver sweeps p ↔ ∃ sweep < sweeps, p = clock.victim sweep := by
  constructor
  · rintro ⟨t, rests, few, rfl⟩
    exact ⟨_, few, by rw [victim, Nat.nth_count rests]⟩
  · rintro ⟨sweep, few, rfl⟩
    refine ⟨Nat.nth clock.Rests sweep, Nat.nth_mem_of_infinite clock.rests_infinite sweep, ?_, rfl⟩
    rwa [Nat.count_nth_of_infinite clock.rests_infinite]

theorem victim_lt (valid : clock.Valid) (sweep : Nat) : clock.victim sweep < clock.len :=
  page_lt valid _

theorem GivesUp.unique {sweep other : Nat} (valid : clock.Valid) (gives : clock.GivesUp sweep)
    (again : clock.GivesUp other) : sweep = other := by
  have early : ∀ sweep, clock.GivesUp sweep → ∃ t < 2, Nat.count clock.Rests t = sweep ∧
      (t = 0 ∨ clock.Rests (t - 1)) ∧ ¬clock.Rests t := by
    rintro sweep ⟨t, count, start, page, quiet⟩
    have inside := page_lt valid t
    refine ⟨t, ?_, count, start, by simpa using quiet 0 (by omega)⟩
    by_contra late
    exact quiet (clock.len - 2) (by omega) (Or.inl (by omega))
  obtain ⟨s, small, rfl, start, quiet⟩ := early sweep gives
  obtain ⟨t, less, rfl, begin, still⟩ := early other again
  rcases Nat.lt_trichotomy s t with before | rfl | after
  · obtain ⟨rfl, rfl⟩ : s = 0 ∧ t = 1 := by omega
    exact absurd (begin.resolve_left (by omega)) quiet
  · rfl
  · obtain ⟨rfl, rfl⟩ : t = 0 ∧ s = 1 := by omega
    exact absurd (start.resolve_left (by omega)) still

end Clock
