import Mathlib.Data.Finset.Card
import Mathlib.Order.Interval.Finset.Nat

/-! Disjoint spans of a range of natural numbers and the points that they leave free. -/

namespace Spans

structure Span where
  first : Nat
  count : Nat
deriving DecidableEq

def Span.points (span : Span) : Finset Nat := Finset.Ico span.first (span.first + span.count)

@[simp] theorem Span.mem_points (span : Span) (point : Nat) :
    point ∈ span.points ↔ span.first ≤ point ∧ point < span.first + span.count := by
  simp [Span.points]

@[simp] theorem Span.card_points (span : Span) : span.points.card = span.count := by
  simp [Span.points]

def freePoints (len : Nat) (spans : List Span) : Finset Nat :=
  (Finset.range len).filter fun point => ∀ span ∈ spans, point ∉ span.points

@[simp] theorem mem_freePoints (len : Nat) (spans : List Span) (point : Nat) :
    point ∈ freePoints len spans ↔ point < len ∧ ∀ span ∈ spans, point ∉ span.points := by
  simp [freePoints]

@[simp] theorem freePoints_nil (len : Nat) : freePoints len [] = Finset.range len := by
  ext point
  simp

/-- The spans lie below `len` and no two share a point. -/
structure Packed (len : Nat) (spans : List Span) : Prop where
  apart : spans.Pairwise fun left right => Disjoint left.points right.points
  inside : ∀ span ∈ spans, span.first + span.count ≤ len

theorem Packed.nil (len : Nat) : Packed len [] := ⟨List.Pairwise.nil, by simp⟩

section Change

variable {len : Nat} {span : Span} {spans others : List Span}

theorem freePoints_perm (same : spans.Perm others) : freePoints len spans = freePoints len others := by
  ext point
  simp only [mem_freePoints, same.mem_iff]

theorem Packed.perm (packed : Packed len spans) (same : spans.Perm others) : Packed len others :=
  ⟨(same.pairwise_iff fun disjoint => disjoint.symm).mp packed.apart,
    fun span member => packed.inside span (same.mem_iff.mpr member)⟩

theorem freePoints_cons :
    freePoints len (span :: spans) = freePoints len spans \ span.points := by
  ext point
  simp only [mem_freePoints, List.mem_cons, forall_eq_or_imp, Finset.mem_sdiff]
  tauto

theorem Packed.cons (packed : Packed len spans) (free : span.points ⊆ freePoints len spans)
    (inside : span.first + span.count ≤ len) : Packed len (span :: spans) := by
  refine ⟨List.pairwise_cons.mpr ⟨fun other member => ?_, packed.apart⟩, ?_⟩
  · rw [Finset.disjoint_left]
    intro point own
    exact ((mem_freePoints ..).mp (free own)).2 other member
  · rintro other (_ | member)
    · exact inside
    · exact packed.inside other ‹_›

theorem Packed.tail (packed : Packed len (span :: spans)) : Packed len spans :=
  ⟨(List.pairwise_cons.mp packed.apart).2, fun other member =>
    packed.inside other (List.mem_cons_of_mem span member)⟩

theorem Packed.freePoints_tail (packed : Packed len (span :: spans)) :
    freePoints len spans = freePoints len (span :: spans) ∪ span.points := by
  have apart := (List.pairwise_cons.mp packed.apart).1
  have inside := packed.inside span (by simp)
  ext point
  rw [freePoints_cons, Finset.mem_union, Finset.mem_sdiff]
  constructor
  · intro free
    by_cases own : point ∈ span.points
    · exact Or.inr own
    · exact Or.inl ⟨free, own⟩
  · rintro (free | own)
    · exact free.1
    · have bounds := (span.mem_points point).mp own
      refine (mem_freePoints ..).mpr ⟨by omega, fun other member => ?_⟩
      exact Finset.disjoint_left.mp (apart other member) own

theorem Packed.card_tail (packed : Packed len (span :: spans)) :
    (freePoints len spans).card = (freePoints len (span :: spans)).card + span.count := by
  have outside : Disjoint (freePoints len (span :: spans)) span.points := by
    rw [freePoints_cons]
    exact Finset.sdiff_disjoint
  rw [packed.freePoints_tail, Finset.card_union_of_disjoint outside, span.card_points]

end Change

end Spans
