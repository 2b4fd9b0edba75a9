import Gaveta.Library.Insertion
import Gaveta.Library.LeafMap
import Mathlib.Data.Nat.Log
import Mathlib.Tactic.Ring

/-!
How full the nodes of a labelled tree are: what changes of the leaves keep it, and how many records
it takes to make a tree of some height.
-/

namespace PagedTree

variable {ν κ ι : Type} [LinearOrder ι] {key : κ → ι} {least low high height : Nat}

theorem Filled.mapLeaves {f : Leaf ν κ → Leaf ν κ} {tree : Tree ν κ height}
    (filled : Filled least low high height tree) (fewer : least ≤ low)
    (bounds : ∀ leaf ∈ leaves height tree,
      low ≤ (f leaf).records.length ∧ (f leaf).records.length ≤ high) :
    Filled least low high height (mapLeaves f height tree) := by
  induction height generalizing least with
  | zero =>
      have bound := bounds tree (by simp [leaves])
      exact ⟨fewer.trans bound.1, bound.2⟩
  | succ height ih =>
      obtain ⟨counts, children⟩ := filled
      refine ⟨?_, fun child member => ?_⟩
      · simpa [PagedTree.mapLeaves] using counts
      · rw [mapLeaves_children] at member
        obtain ⟨old, oldMember, rfl⟩ := List.mem_map.mp member
        exact ih (children old oldMember) le_rfl fun leaf inside =>
          bounds leaf (List.mem_flatMap.mpr ⟨old, oldMember, inside⟩)

theorem Filled.siblings_pos {k : ι} {tree : Tree ν κ (height + 1)}
    (filled : Filled 1 low high (height + 1) tree) (one : 1 ≤ low) :
    0 < siblings key k (height + 1) tree := by
  induction height with
  | zero => exact filled.1.1
  | succ height ih =>
      have picked := pick_mem key k (Branch.label tree) (Branch.first tree) (Branch.rest tree)
      exact ih ((filled.2 _ picked).weaken one)

theorem Filled.leaf_ge {tree : Tree ν κ height} (filled : Filled low low high height tree) :
    ∀ leaf ∈ leaves height tree, low ≤ leaf.records.length := by
  induction height with
  | zero =>
      intro leaf member
      rw [List.mem_singleton.mp member]
      exact filled.1
  | succ height ih =>
      intro leaf member
      obtain ⟨child, childMember, inside⟩ := List.mem_flatMap.mp member
      exact ih (filled.2 child childMember) leaf inside

def TopFilled (low high height : Nat) (tree : Tree ν κ height) : Prop :=
  height ≠ 0 → Filled 1 low high height tree

theorem Grows.topFilled {order grown : Nat} {k : κ} {tree : Tree ν κ height} {after : Tree ν κ grown}
    {fresh : List ν} (grows : Grows key order k tree grown after fresh) (two : 2 ≤ order)
    (filled : Filled 0 ((order - 1) / 2) (order - 1) height tree)
    (topFilled : TopFilled ((order - 1) / 2) (order - 1) height tree) :
    TopFilled ((order - 1) / 2) (order - 1) grown after := by
  intro tall
  cases grows with
  | level inserts => exact inserts.filled key (topFilled tall)
  | taller inserts =>
      have halves := inserts.filled key filled
      simp only [Filled, List.length_singleton, Branch.children, List.map_cons, List.map_nil,
        List.mem_cons, List.not_mem_nil, or_false]
      refine ⟨by omega, ?_⟩
      rintro child (rfl | rfl)
      · exact halves.1
      · exact halves.2

theorem length_flatMap_ge {α β : Type} {f : α → List β} {items : List α} {count : Nat}
    (each : ∀ item ∈ items, count ≤ (f item).length) :
    items.length * count ≤ (items.flatMap f).length := by
  induction items with
  | nil => simp
  | cons item items ih =>
      have first := each item List.mem_cons_self
      have rest := ih fun other member => each other (List.mem_cons_of_mem item member)
      rw [List.flatMap_cons, List.length_append, List.length_cons, Nat.succ_mul]
      omega

theorem length_flatMap_le {α β : Type} {f : α → List β} {items : List α} {count : Nat}
    (each : ∀ item ∈ items, (f item).length ≤ count) :
    (items.flatMap f).length ≤ items.length * count := by
  induction items with
  | nil => simp
  | cons item items ih =>
      have first := each item List.mem_cons_self
      have rest := ih fun other member => each other (List.mem_cons_of_mem item member)
      rw [List.flatMap_cons, List.length_append, List.length_cons, Nat.succ_mul]
      omega

theorem Branch.length_children {τ : Type} (branch : Branch ν κ τ) :
    branch.children.length = branch.rest.length + 1 := by
  rw [Branch.children, List.length_cons, List.length_map]

theorem Filled.records_ge {tree : Tree ν κ height} (filled : Filled low low high height tree) :
    low * (low + 1) ^ height ≤ (records height tree).length := by
  induction height with
  | zero =>
      rw [records_leaf, Nat.pow_zero, Nat.mul_one]
      exact filled.1
  | succ height ih =>
      have each := length_flatMap_ge fun child member => ih (filled.2 child member)
      have most := Nat.mul_le_mul_right (low * (low + 1) ^ height) (Nat.succ_le_succ filled.1.1)
      rw [Branch.length_children] at each
      rw [records_branch]
      calc low * (low + 1) ^ (height + 1) = (low + 1) * (low * (low + 1) ^ height) := by ring
        _ ≤ (Branch.rest tree).length.succ * (low * (low + 1) ^ height) := most
        _ ≤ ((Branch.children tree).flatMap (records height)).length := each

theorem Filled.records_le {tree : Tree ν κ height} (filled : Filled least low high height tree) :
    (records height tree).length ≤ high * (high + 1) ^ height := by
  induction height generalizing least with
  | zero =>
      rw [records_leaf, Nat.pow_zero, Nat.mul_one]
      exact filled.2
  | succ height ih =>
      have each := length_flatMap_le fun child member => ih (filled.2 child member)
      have most := Nat.mul_le_mul_right (high * (high + 1) ^ height) (Nat.succ_le_succ filled.1.2)
      rw [Branch.length_children] at each
      rw [records_branch]
      calc ((Branch.children tree).flatMap (records height)).length
          ≤ ((Branch.rest tree).length + 1) * (high * (high + 1) ^ height) := each
        _ ≤ (high + 1) * (high * (high + 1) ^ height) := most
        _ = high * (high + 1) ^ (height + 1) := by ring

theorem TopFilled.height_le {tree : Tree ν κ height} (filled : TopFilled low high height tree)
    (one : 1 ≤ low) : height ≤ Nat.log (low + 1) (records height tree).length := by
  cases height with
  | zero => exact Nat.zero_le _
  | succ height =>
      have top := filled (Nat.succ_ne_zero height)
      have each := length_flatMap_ge fun child member => (top.2 child member).records_ge
      have two := Nat.mul_le_mul_right (low * (low + 1) ^ height) (Nat.succ_le_succ top.1.1)
      rw [Branch.length_children] at each
      have many : (low + 1) ^ (height + 1) ≤ (records (height + 1) tree).length := by
        rw [records_branch]
        calc (low + 1) ^ (height + 1) = (low + 1) * (low + 1) ^ height := by ring
          _ ≤ 2 * low * (low + 1) ^ height := Nat.mul_le_mul_right _ (by omega)
          _ = 2 * (low * (low + 1) ^ height) := by ring
          _ ≤ ((Branch.rest tree).length + 1) * (low * (low + 1) ^ height) := two
          _ ≤ ((Branch.children tree).flatMap (records height)).length := each
      exact Nat.le_log_of_pow_le (by omega) many

end PagedTree
