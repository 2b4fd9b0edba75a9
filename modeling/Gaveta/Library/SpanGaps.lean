import Gaveta.Library.Spans
import Mathlib.Algebra.Order.BigOperators.Group.Finset
import Mathlib.Data.Finset.Max
import Mathlib.Algebra.GroupWithZero.Nat

/-! How many points can stay free when no long enough run of free points is left. -/

namespace Spans

def spansBefore (spans : List Span) (point : Nat) : Nat :=
  spans.countP fun span => span.first ≤ point

section Gaps

variable {len count : Nat} {spans : List Span}

theorem Packed.card_sum (packed : Packed len spans) :
    (freePoints len spans).card + (spans.map Span.count).sum = len := by
  induction spans with
  | nil => simp
  | cons span spans ih =>
      have rest := ih packed.tail
      have tail := packed.card_tail
      simp only [List.map_cons, List.sum_cons]
      omega

theorem spansBefore_le (spans : List Span) (point : Nat) : spansBefore spans point ≤ spans.length :=
  List.countP_le_length

theorem spansBefore_mono {first last : Nat} (ordered : first ≤ last) :
    spansBefore spans first ≤ spansBefore spans last := by
  refine List.countP_mono_left fun span _ before => ?_
  simp only [decide_eq_true_eq] at before ⊢
  omega

theorem spansBefore_lt {first last : Nat} {span : Span} (member : span ∈ spans)
    (after : first < span.first) (before : span.first ≤ last) :
    spansBefore spans first < spansBefore spans last := by
  induction spans with
  | nil => cases member
  | cons head spans ih =>
      have more : spansBefore spans first ≤ spansBefore spans last := spansBefore_mono (by omega)
      simp only [spansBefore, List.countP_cons, decide_eq_true_eq] at ih more ⊢
      rcases List.mem_cons.mp member with rfl | member
      · rw [if_neg (by omega), if_pos before]
        omega
      · have strict := ih member
        split_ifs <;> omega

theorem free_between {first last point : Nat} (firstFree : first ∈ freePoints len spans)
    (lastFree : last ∈ freePoints len spans)
    (same : spansBefore spans first = spansBefore spans last) (after : first ≤ point)
    (before : point ≤ last) : point ∈ freePoints len spans := by
  rw [mem_freePoints] at firstFree lastFree ⊢
  refine ⟨by omega, fun span member inside => ?_⟩
  have outside := firstFree.2 span member
  rw [Span.mem_points] at inside outside
  have begins : first < span.first := by omega
  have strict := spansBefore_lt member begins (inside.1.trans before)
  omega

/-- Every window of `count + 1` points has one that is not free. -/
def NoRun (len : Nat) (spans : List Span) (count : Nat) : Prop :=
  ∀ first, ∃ point, first ≤ point ∧ point < first + (count + 1) ∧ point ∉ freePoints len spans

theorem card_gap_le (unfit : NoRun len spans count) (before : Nat) :
    ((freePoints len spans).filter fun point => spansBefore spans point = before).card ≤ count := by
  rcases Finset.eq_empty_or_nonempty
    ((freePoints len spans).filter fun point => spansBefore spans point = before) with
    empty | nonempty
  · rw [empty]
    exact Nat.zero_le count
  · obtain ⟨first, least⟩ : ∃ first, first = Finset.min' _ nonempty := ⟨_, rfl⟩
    have gap := Finset.mem_filter.mp (Finset.min'_mem _ nonempty)
    rw [← least] at gap
    have inside : ((freePoints len spans).filter fun point => spansBefore spans point = before) ⊆
        Finset.Ico first (first + count) := by
      intro point own
      have lower := Finset.min'_le _ point own
      rw [← least] at lower
      have free := Finset.mem_filter.mp own
      refine Finset.mem_Ico.mpr ⟨lower, ?_⟩
      by_contra far
      obtain ⟨taken, after, below, occupied⟩ := unfit first
      exact occupied (free_between gap.1 free.1 (gap.2.trans free.2.symm) after (by omega))
    simpa using Finset.card_le_card inside

/-- Each span ends one gap and the table the last, and a gap without a run is shorter than the run. -/
theorem card_freePoints_le (unfit : NoRun len spans count) :
    (freePoints len spans).card ≤ count * (spans.length + 1) := by
  refine Finset.card_le_mul_card_image_of_maps_to (t := Finset.range (spans.length + 1))
    (fun point _ => Finset.mem_range.mpr (Nat.lt_succ_of_le (spansBefore_le spans point))) count
    (fun before _ => card_gap_le unfit before) |>.trans ?_
  rw [Finset.card_range]

end Gaps

end Spans
