import Gaveta.Memory.Replacement

/-! Which page a call of `second_chance` selects, and which pages it looks at. -/

namespace Gaveta

/-- A page that the loop of `second_chance` looks at, and its used bit then. -/
structure Visit where
  page : Nat
  used : Bool
deriving DecidableEq

def visits (len hand : Nat) : Nat → Nat → (Nat → Page) → Option (List Visit)
  | 0, _, _ => none
  | fuel + 1, curr, pages =>
      if (pages curr).used = false then some [{ page := curr, used := false }]
      else
        let pages := Function.update pages curr { pages curr with used := false }
        let next := (curr + 1) % len
        if next + 1 = hand then some [{ page := curr, used := true }]
        else (visits len hand fuel next pages).map ({ page := curr, used := true } :: ·)

def Memory.visits (m : Memory) : Option (List Visit) :=
  Gaveta.visits m.len m.hand (m.len + 2) m.hand m.pages

/-- A call returns the page where it stops, whose bit is clear, and clears the bits of the pages
before it; it returns none only if all pages are in use. -/
structure Selects (m : Memory) (seen : List Visit) : Prop where
  inside : ∀ visit ∈ seen, visit.page < m.len
  found : ∀ v, (secondChance m).2 = some v → ∃ passed, seen = passed ++ [{ page := v, used := false }] ∧
    (∀ visit ∈ passed, visit.used = true) ∧
    ∀ p, (secondChance m).1.pages p =
      if p ∈ passed.map Visit.page then { m.pages p with used := false } else m.pages p
  full : (secondChance m).2 = none → ∀ p < m.len, { page := p, used := true } ∈ seen

def SelectsVictim (m : Memory) : Prop := ∃ seen, m.visits = some seen ∧ Selects m seen

section Loop

variable {len hand fuel curr : Nat} {pages : Nat → Page} {seen : List Visit}

theorem visits_head (seeing : visits len hand fuel curr pages = some seen) :
    ∃ used rest, seen = { page := curr, used := used } :: rest := by
  cases fuel with
  | zero => cases seeing
  | succ fuel =>
      rw [visits] at seeing
      dsimp only at seeing
      split_ifs at seeing
      · exact ⟨false, [], (Option.some.inj seeing).symm⟩
      · exact ⟨true, [], (Option.some.inj seeing).symm⟩
      · obtain ⟨rest, _, rfl⟩ := Option.map_eq_some_iff.mp seeing
        exact ⟨true, rest, rfl⟩

theorem visits_all {P : Nat → Prop} (seeing : visits len hand fuel curr pages = some seen)
    (start : P curr)
    (next : ∀ page, (page + 1) % len + 1 ≠ hand → P ((page + 1) % len)) :
    ∀ visit ∈ seen, P visit.page := by
  induction fuel generalizing curr pages seen with
  | zero => cases seeing
  | succ fuel ih =>
      rw [visits] at seeing
      dsimp only at seeing
      split_ifs at seeing with unused ends
      · obtain rfl := Option.some.inj seeing
        simpa using start
      · obtain rfl := Option.some.inj seeing
        simpa using start
      · obtain ⟨rest, later, rfl⟩ := Option.map_eq_some_iff.mp seeing
        intro visit member
        rcases List.mem_cons.mp member with rfl | member
        · exact start
        · exact ih later (next curr ends) visit member

theorem sweep_of_visits (seeing : visits len hand fuel curr pages = some seen) :
    ((sweep len hand fuel curr pages).2.2 = true → ∃ passed last,
        seen = passed ++ [{ page := last, used := false }] ∧
        (sweep len hand fuel curr pages).2.1 = (last + 1) % len) ∧
      ((sweep len hand fuel curr pages).2.2 = false → ∃ p, p % len + 1 = hand) := by
  induction fuel generalizing curr pages seen with
  | zero => cases seeing
  | succ fuel ih =>
      rw [visits] at seeing
      rw [sweep]
      dsimp only at seeing ⊢
      by_cases unused : (pages curr).used = false
      · rw [if_pos unused] at seeing ⊢
        obtain rfl := Option.some.inj seeing
        exact ⟨fun _ => ⟨[], curr, rfl, rfl⟩, fun gaveUp => by cases gaveUp⟩
      rw [if_neg unused] at seeing ⊢
      by_cases ends : (curr + 1) % len + 1 = hand
      · rw [if_pos ends]
        exact ⟨fun found => absurd found Bool.false_ne_true, fun _ => ⟨curr + 1, ends⟩⟩
      · rw [if_neg ends] at seeing ⊢
        obtain ⟨rest, later, rfl⟩ := Option.map_eq_some_iff.mp seeing
        obtain ⟨found, gaveUp⟩ := ih later
        refine ⟨fun answered => ?_, gaveUp⟩
        obtain ⟨passed, last, rfl, hand⟩ := found answered
        exact ⟨_ :: passed, last, rfl, hand⟩

def reached (len hand t : Nat) : Nat := if t = 0 then hand else (hand + t) % len

theorem reached_succ (len hand t : Nat) :
    (reached len hand t + 1) % len = reached len hand (t + 1) := by
  rw [reached, reached, if_neg (Nat.succ_ne_zero t)]
  split_ifs with zero
  · rw [zero]
  · rw [Nat.mod_add_mod, Nat.add_assoc]

theorem visits_terminate {t : Nat} (one : 1 ≤ len) (left : t + fuel = len + 2) (bound : t ≤ len + 1)
    (cleared : ∀ s, 1 ≤ s → s < t → (pages (reached len hand s)).used = false) :
    ∃ seen, visits len hand fuel (reached len hand t) pages = some seen := by
  induction fuel generalizing t pages with
  | zero => omega
  | succ fuel ih =>
      rw [visits, reached_succ]
      dsimp only
      split_ifs with unused ends
      · exact ⟨_, rfl⟩
      · exact ⟨_, rfl⟩
      · have short : t ≠ len + 1 := by
          rintro rfl
          refine unused ?_
          have again : reached len hand (len + 1) = reached len hand 1 := by
            rw [reached, reached, if_neg (by omega), if_neg (by omega),
              (by omega : hand + (len + 1) = hand + 1 + len), Nat.add_mod_right]
          rw [again]
          exact cleared 1 le_rfl (by omega)
        have later : ∀ s, 1 ≤ s → s < t + 1 →
            (Function.update pages (reached len hand t)
              { pages (reached len hand t) with used := false }
              (reached len hand s)).used = false := by
          intro s lower upper
          by_cases own : reached len hand s = reached len hand t
          · rw [own, Function.update_self]
          · rw [Function.update_of_ne own]
            refine cleared s lower (Nat.lt_of_le_of_ne (by omega) ?_)
            rintro rfl
            exact own rfl
        obtain ⟨seen, seeing⟩ := ih (by omega) (by omega) later
        exact ⟨_, by rw [seeing, Option.map_some]⟩

end Loop

variable {m : Memory} {seen : List Visit}

theorem Memory.visits_isSome (one : 1 ≤ m.len) : ∃ seen, m.visits = some seen :=
  @visits_terminate m.len m.hand (m.len + 2) m.pages 0 one (by omega) (by omega)
    fun s lower upper => by omega

theorem secondChance_some (seeing : m.visits = some seen) {v : Nat}
    (returned : (secondChance m).2 = some v) :
    ∃ passed last, seen = passed ++ [{ page := last, used := false }] ∧
      v = (last + 1) % m.len := by
  have found : (sweep m.len m.hand (m.len + 2) m.hand m.pages).2.2 = true := by
    by_contra gaveUp
    simp [secondChance, semWait, gaveUp] at returned
  obtain ⟨passed, last, split, hand⟩ := (sweep_of_visits seeing).1 found
  refine ⟨passed, last, split, ?_⟩
  rw [← hand]
  simpa [secondChance, semWait, found] using returned.symm

theorem secondChance_none (seeing : m.visits = some seen)
    (returned : (secondChance m).2 = none) : ∃ p, p % m.len + 1 = m.hand := by
  have gaveUp : (sweep m.len m.hand (m.len + 2) m.hand m.pages).2.2 = false := by
    cases found : (sweep m.len m.hand (m.len + 2) m.hand m.pages).2.2 with
    | false => rfl
    | true => simp [secondChance, semWait, found] at returned
  exact (sweep_of_visits seeing).2 gaveUp

theorem selects_single (one : m.len = 1) (hand : m.hand = 0) : SelectsVictim m := by
  cases bit : (m.pages 0).used with
  | false =>
      have answer : secondChance m =
          (semPost { semWait m with pages := m.pages, hand := 0 }, some 0) := by
        simp [secondChance, semWait, sweep, one, hand, bit]
      refine ⟨[{ page := 0, used := false }], by simp [Memory.visits, visits, hand, bit], ?_⟩
      refine ⟨by simp [one], fun v returned => ?_, fun returned => ?_⟩
      · rw [answer] at returned ⊢
        obtain rfl := Option.some.inj returned
        exact ⟨[], rfl, by simp, fun p => by simp [semPost]⟩
      · rw [answer] at returned
        cases returned
  | true =>
      have answer : secondChance m =
          (semPost { semWait m with
            pages := Function.update m.pages 0 { m.pages 0 with used := false }
            hand := 0 }, some 0) := by
        simp [secondChance, semWait, sweep, one, hand, bit]
      refine ⟨[{ page := 0, used := true }, { page := 0, used := false }],
        by simp [Memory.visits, visits, one, hand, bit], ?_⟩
      refine ⟨by simp [one], fun v returned => ?_, fun returned => ?_⟩
      · rw [answer] at returned ⊢
        obtain rfl := Option.some.inj returned
        refine ⟨[{ page := 0, used := true }], rfl, by simp, fun p => ?_⟩
        by_cases own : p = 0
        · simp [semPost, own]
        · simp [semPost, own]
      · rw [answer] at returned
        cases returned

/-- Every call ends.  It selects the page at which it stops only in a table of one page: it returns
the page behind, does not look at the page before the hand when it gives up, and starts outside of
the table if the hand is from a larger pool. -/
theorem selectsVictim_iff (m : Memory) (one : 1 ≤ m.len) :
    (∃ seen, m.visits = some seen) ∧ (SelectsVictim m ↔ m.len = 1 ∧ m.hand = 0) := by
  refine ⟨Memory.visits_isSome one, ?_, fun single => selects_single single.1 single.2⟩
  rintro ⟨seen, seeing, selects⟩
  obtain ⟨bit, rest, started⟩ := visits_head seeing
  have hand : m.hand < m.len := selects.inside _ (by rw [started]; exact List.mem_cons_self)
  cases returned : (secondChance m).2 with
  | some v =>
      obtain ⟨passed, last, split, next⟩ := secondChance_some seeing returned
      obtain ⟨before, again, _⟩ := selects.found v returned
      have stopped : v = last := by
        have ends := congrArg List.getLast? (split.symm.trans again)
        simpa using ends.symm
      have inside := selects.inside { page := last, used := false } (by simp [split])
      dsimp only at inside
      have length : m.len = 1 := by
        by_contra more
        rw [stopped] at next
        rcases Nat.lt_or_eq_of_le (Nat.succ_le_of_lt inside) with less | full
        · rw [Nat.mod_eq_of_lt less] at next
          omega
        · rw [Nat.add_one, full, Nat.mod_self] at next
          omega
      exact ⟨length, by omega⟩
  | none =>
      obtain ⟨p, before⟩ := secondChance_none seeing returned
      have member := selects.full returned (p % m.len) (Nat.mod_lt _ one)
      have notLast := visits_all (P := fun page => page + 1 ≠ m.hand) seeing (by omega)
        fun _ goesOn => goesOn
      exact absurd before (notLast _ member)

theorem selectsVictim_iff_sixteen :
    SelectsVictim (initMemory 3 (fun _ => 0) 16385) ↔
      (initMemory 3 (fun _ => 0) 16385).len = 1 ∧ (initMemory 3 (fun _ => 0) 16385).hand = 0 :=
  (selectsVictim_iff (initMemory 3 (fun _ => 0) 16385) (by decide)).2

/-- In a new pool the first call stops at page 0 and returns page 1. -/
theorem second_chance_returns_next :
    (initMemory 0 (fun _ => 0) 16385).visits = some [{ page := 0, used := false }] ∧
      (secondChance (initMemory 0 (fun _ => 0) 16385)).2 = some 1 ∧
      ¬SelectsVictim (initMemory 0 (fun _ => 0) 16385) := by
  have seen : (initMemory 0 (fun _ => 0) 16385).visits = some [{ page := 0, used := false }] := rfl
  refine ⟨seen, rfl, ?_⟩
  rintro ⟨other, seeing, selects⟩
  obtain rfl := Option.some.inj (seen.symm.trans seeing)
  obtain ⟨passed, split, _⟩ := selects.found 1 rfl
  have ends := congrArg List.getLast? split
  simp at ends

end Gaveta
