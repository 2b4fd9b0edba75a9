import Mathlib.Tactic.Common

/-!
Refinement of one machine by another over runs: the finer machine may stop, the coarser one is a
function, and both give an output for every operation.
-/

namespace Refinement

variable {σ τ op out : Type}

/-- The outputs of a run; nothing if the machine stops in it. -/
def run (step : σ → op → Option (σ × out)) : σ → List op → Option (σ × List out)
  | s, [] => some (s, [])
  | s, o :: rest =>
      match step s o with
      | none => none
      | some (next, output) => (run step next rest).map fun final => (final.1, output :: final.2)

def specRun (spec : τ → op → τ × out) : τ → List op → τ × List out
  | t, [] => (t, [])
  | t, o :: rest =>
      ((specRun spec (spec t o).1 rest).1, (spec t o).2 :: (specRun spec (spec t o).1 rest).2)

def Admitted (step : σ → op → Option (σ × out)) (admits : σ → op → Prop) : σ → List op → Prop
  | _, [] => True
  | s, o :: rest =>
      admits s o ∧ ∀ next output, step s o = some (next, output) → Admitted step admits next rest

instance Admitted.decide (step : σ → op → Option (σ × out)) (admits : σ → op → Prop)
    [∀ s o, Decidable (admits s o)] : ∀ s ops, Decidable (Admitted step admits s ops)
  | _, [] => .isTrue trivial
  | s, o :: rest =>
      match acts : step s o with
      | none => decidable_of_iff (admits s o) (by simp [Admitted, acts])
      | some (next, output) =>
          have := Admitted.decide step admits next rest
          decidable_of_iff (admits s o ∧ Admitted step admits next rest) (by simp [Admitted, acts])

theorem Admitted.of_forall {step : σ → op → Option (σ × out)} {allowed : op → Prop} {s : σ}
    {ops : List op} (all : ∀ o ∈ ops, allowed o) : Admitted step (fun _ o => allowed o) s ops := by
  induction ops generalizing s with
  | nil => trivial
  | cons o rest ih =>
      exact ⟨all o List.mem_cons_self, fun _ _ _ => ih fun other member =>
        all other (List.mem_cons_of_mem _ member)⟩

def Simulates (step : σ → op → Option (σ × out)) (spec : τ → op → τ × out)
    (admits : σ → op → Prop) (related : σ → τ → Prop) : Prop :=
  ∀ s t o, related s t → admits s o →
    ∃ next, step s o = some (next, (spec t o).2) ∧ related next (spec t o).1

/-- Each admitted step, seen through `view`, is a step of the other machine. -/
structure Lockstep (step : σ → op → Option (σ × out)) (other : τ → op → Option (τ × out))
    (admits : σ → op → Prop) (allowed : τ → op → Prop) (inv : σ → Prop) (view : σ → τ) : Prop where
  acts : ∀ s o, inv s → admits s o →
    (step s o).map (fun acted => (view acted.1, acted.2)) = other (view s) o
  keeps : ∀ s o next output, inv s → admits s o → step s o = some (next, output) → inv next
  allows : ∀ s o, inv s → admits s o → allowed (view s) o

section Runs

variable {step : σ → op → Option (σ × out)} {spec : τ → op → τ × out} {admits : σ → op → Prop}
  {related : σ → τ → Prop}

theorem run_cons {s next : σ} {o : op} {output : out} (acts : step s o = some (next, output))
    (rest : List op) :
    run step s (o :: rest) = (run step next rest).map fun final => (final.1, output :: final.2) := by
  rw [run, acts]

theorem specRun_append (t : τ) (front back : List op) :
    specRun spec t (front ++ back) =
      ((specRun spec (specRun spec t front).1 back).1,
        (specRun spec t front).2 ++ (specRun spec (specRun spec t front).1 back).2) := by
  induction front generalizing t with
  | nil => rfl
  | cons o front ih => simp only [List.cons_append, specRun, ih]

theorem Admitted.append {s : σ} {front back : List op} (first : Admitted step admits s front)
    (later : ∀ middle outputs, run step s front = some (middle, outputs) →
      Admitted step admits middle back) : Admitted step admits s (front ++ back) := by
  induction front generalizing s with
  | nil => exact later s [] rfl
  | cons o front ih =>
      refine ⟨first.1, fun next output acts => ih (first.2 next output acts) ?_⟩
      intro middle outputs ran
      exact later middle (output :: outputs) (by rw [run_cons acts, ran]; rfl)

theorem Simulates.run (simulates : Simulates step spec admits related) {s : σ} {t : τ}
    {ops : List op} (start : related s t) (admitted : Admitted step admits s ops) :
    ∃ final, Refinement.run step s ops = some (final, (specRun spec t ops).2) ∧
      related final (specRun spec t ops).1 := by
  induction ops generalizing s t with
  | nil => exact ⟨s, rfl, start⟩
  | cons o rest ih =>
      obtain ⟨allowed, later⟩ := admitted
      obtain ⟨next, acts, kept⟩ := simulates s t o start allowed
      obtain ⟨final, ran, reached⟩ := ih kept (later next _ acts)
      refine ⟨final, ?_, reached⟩
      rw [run_cons acts, ran, specRun]
      rfl

theorem Lockstep.run {other : τ → op → Option (τ × out)} {allowed : τ → op → Prop}
    {inv : σ → Prop} {view : σ → τ} (lockstep : Lockstep step other admits allowed inv view) {s : σ}
    {ops : List op} (start : inv s) (admitted : Admitted step admits s ops) :
    (Refinement.run step s ops).map (fun final => (view final.1, final.2)) =
        Refinement.run other (view s) ops ∧
      (∀ final outputs, Refinement.run step s ops = some (final, outputs) → inv final) ∧
      Admitted other allowed (view s) ops := by
  induction ops generalizing s with
  | nil =>
      refine ⟨rfl, ?_, trivial⟩
      rintro _ _ ⟨⟩
      exact start
  | cons o rest ih =>
      obtain ⟨admitsHere, later⟩ := admitted
      have here := lockstep.acts s o start admitsHere
      have allowedHere := lockstep.allows s o start admitsHere
      cases acts : step s o with
      | none =>
          rw [acts] at here
          have stops : other (view s) o = none := here.symm
          refine ⟨?_, ?_, allowedHere, ?_⟩
          · simp only [Refinement.run, acts, stops, Option.map_none]
          · intro final outputs ran
            simp [Refinement.run, acts] at ran
          · intro next output acted
            rw [stops] at acted
            cases acted
      | some acted =>
          obtain ⟨next, output⟩ := acted
          rw [acts] at here
          have follows : other (view s) o = some (view next, output) := here.symm
          have kept := lockstep.keeps s o next output start admitsHere acts
          obtain ⟨same, reached, rests⟩ := ih kept (later next output acts)
          rw [run_cons acts, run_cons follows, ← same]
          refine ⟨?_, ?_, allowedHere, ?_⟩
          · simp only [Option.map_map, Function.comp_def]
          · intro final outputs ran
            obtain ⟨last, lastRan, shape⟩ := Option.map_eq_some_iff.mp ran
            obtain ⟨rfl, _⟩ := Prod.mk.injEq .. ▸ shape
            exact reached last.1 last.2 lastRan
          · intro other output acted
            rw [follows] at acted
            obtain ⟨rfl, _⟩ := Prod.mk.injEq .. ▸ Option.some.inj acted
            exact rests

theorem Lockstep.both {other : τ → op → Option (τ × out)} {allowed known : τ → op → Prop}
    {inv : σ → Prop} {view : σ → τ} (lockstep : Lockstep step other admits allowed inv view) {s : σ}
    {ops : List op} (start : inv s) (admitted : Admitted step admits s ops)
    (plain : Admitted other known (view s) ops) :
    Admitted step (fun s o => admits s o ∧ known (view s) o) s ops := by
  induction ops generalizing s with
  | nil => trivial
  | cons o rest ih =>
      refine ⟨⟨admitted.1, plain.1⟩, fun next output acts => ?_⟩
      have here := lockstep.acts s o start admitted.1
      rw [acts] at here
      exact ih (lockstep.keeps s o next output start admitted.1 acts)
        (admitted.2 next output acts) (plain.2 (view next) output here.symm)

end Runs

end Refinement
