import Mathlib.Data.Finset.Card
import Mathlib.Data.Fintype.Card

/-! Threads that share a state which only the holder of a lock may change. -/

namespace Monitor

section Holding

variable {π ι : Type} [Fintype ι] (holds : π → Bool)

def holders (places : ι → π) : Finset ι :=
  Finset.univ.filter fun t => holds (places t) = true

def holding (places : ι → π) : Nat :=
  (holders holds places).card

variable {holds} {places : ι → π} {t : ι}

@[simp] theorem mem_holders : t ∈ holders holds places ↔ holds (places t) = true := by
  simp [holders]

theorem holding_eq_zero : holding holds places = 0 ↔ ∀ t, holds (places t) = false := by
  simp [holding, holders, Finset.filter_eq_empty_iff]

theorem alone (few : holding holds places ≤ 1) {u : ι} (first : holds (places t) = true)
    (second : holds (places u) = true) : t = u :=
  Finset.card_le_one.mp few t (mem_holders.mpr first) u (mem_holders.mpr second)

variable [DecidableEq ι]

theorem holders_update (place : π) :
    holders holds (Function.update places t place) =
      if holds place = true then insert t ((holders holds places).erase t)
      else (holders holds places).erase t := by
  ext u
  by_cases own : u = t
  · subst own
    by_cases inside : holds place = true <;> simp [inside]
  · split_ifs <;> simp [own]

theorem holding_update (place : π) :
    holding holds (Function.update places t place) + (holds (places t)).toNat =
      holding holds places + (holds place).toNat := by
  have erased : ((holders holds places).erase t).card + (holds (places t)).toNat =
      (holders holds places).card := by
    cases inside : holds (places t) with
    | false =>
        rw [Finset.erase_eq_of_notMem (by simp [inside])]
        rfl
    | true => exact Finset.card_erase_add_one (by simp [inside])
  have fresh : t ∉ (holders holds places).erase t := Finset.notMem_erase t _
  rw [holding, holders_update, holding]
  cases inside : holds place with
  | false =>
      rw [if_neg (by simp)]
      exact erased
  | true =>
      rw [if_pos rfl, Finset.card_insert_of_notMem fresh]
      change _ = (holders holds places).card + 1
      omega

end Holding

section Guarded

variable {σ π ι : Type}

/-- The shared state is in order while nobody holds the lock, and otherwise it is as the holder's
place in its code says. -/
structure Guarded (holds : π → Bool) (free : σ → Prop) (busy : π → σ → Prop) (shared : σ)
    (places : ι → π) : Prop where
  free : (∀ t, holds (places t) = false) → free shared
  busy : ∀ t, holds (places t) = true → busy (places t) shared

def Respects (holds : π → Bool) (free : σ → Prop) (busy : π → σ → Prop) (shared : σ) (place : π)
    (shared' : σ) (place' : π) : Prop :=
  match holds place, holds place' with
  | false, false => shared' = shared
  | false, true => free shared → busy place' shared'
  | true, true => busy place shared → busy place' shared'
  | true, false => busy place shared → free shared'

variable {holds : π → Bool} {free : σ → Prop} {busy : π → σ → Prop} {shared shared' : σ}
  {places : ι → π}

/-- The monitor rule: each thread reasons about its own moves only. -/
theorem Guarded.move [Fintype ι] [DecidableEq ι]
    (guarded : Guarded holds free busy shared places) {t : ι} {place : π}
    (few : holding holds places ≤ 1)
    (enters : holds (places t) = false → holds place = true → holding holds places = 0)
    (respects : Respects holds free busy shared (places t) shared' place) :
    Guarded holds free busy shared' (Function.update places t place) := by
  have others : ∀ u, holds (places t) = true → u ≠ t → holds (places u) = false := by
    intro u inside different
    by_contra also
    exact different (alone few (by simpa using also) inside)
  rw [Respects] at respects
  split at respects
  · rename_i outside after
    subst respects
    constructor
    · intro vacant
      refine guarded.free fun u => ?_
      by_cases own : u = t
      · rwa [own]
      · have still := vacant u
        rwa [Function.update_of_ne own] at still
    · intro u inside
      by_cases own : u = t
      · rw [own, Function.update_self, after] at inside
        cases inside
      · rw [Function.update_of_ne own] at inside ⊢
        exact guarded.busy u inside
  · rename_i outside after
    have vacant := holding_eq_zero.mp (enters outside after)
    constructor
    · intro none
      have own := none t
      rw [Function.update_self, after] at own
      cases own
    · intro u inside
      by_cases own : u = t
      · rw [own, Function.update_self]
        exact respects (guarded.free vacant)
      · rw [Function.update_of_ne own, vacant u] at inside
        cases inside
  · rename_i before after
    constructor
    · intro none
      have own := none t
      rw [Function.update_self, after] at own
      cases own
    · intro u inside
      by_cases own : u = t
      · rw [own, Function.update_self]
        exact respects (guarded.busy t before)
      · rw [Function.update_of_ne own, others u before own] at inside
        cases inside
  · rename_i before after
    constructor
    · exact fun _ => respects (guarded.busy t before)
    · intro u inside
      by_cases own : u = t
      · rw [own, Function.update_self, after] at inside
        cases inside
      · rw [Function.update_of_ne own, others u before own] at inside
        cases inside

theorem Guarded.interfere (guarded : Guarded holds free busy shared places)
    (whenFree : free shared → free shared')
    (whenBusy : ∀ t, busy (places t) shared → busy (places t) shared') :
    Guarded holds free busy shared' places :=
  ⟨fun vacant => whenFree (guarded.free vacant),
    fun t inside => whenBusy t (guarded.busy t inside)⟩

end Guarded

end Monitor
