import Gaveta.BTree.InsertRun

/-! What a failed insertion leaves of the entries of the tree. -/

namespace Gaveta

open PagedTree

def HoldsEntries (b : BTree Resident Rrn) (entries : List Key) : Prop :=
  (b.root = none ∧ entries = []) ∨
    ∃ height tree, b.root = some (label height tree) ∧ Represents b.io.nodes height tree ∧
      records height tree = entries ∧
      ∀ key ∈ entries, key ∈ (descend Key.id key.id height tree).records

def FailureIsAtomic (b : BTree Resident Rrn) (id : CString) (rrn : Rrn) (entries : List Key) :
    Prop :=
  ∀ after status, bInsert residentPager b id rrn = (after, some status) → status.value < 0 →
    HoldsEntries after entries

section Failure

variable {b : BTree Resident Rrn} {id : CString} {rrn : Rrn} {height : Nat}
  {tree : Tree Rrn Key height}

theorem holdsEntries_of_represents (root : b.root = some (label height tree))
    (represents : Represents b.io.nodes height tree) (sorted : InOrder Key.id (inorder height tree)) :
    HoldsEntries b (records height tree) := by
  refine Or.inr ⟨height, tree, root, represents, rfl, fun key member => ?_⟩
  obtain ⟨leaf, inside, listed⟩ := List.mem_flatMap.mp member
  rwa [descend_eq_of_mem Key.id sorted inside listed]

theorem HoldsEntries.records_eq {entries : List Key} (holds : HoldsEntries b entries)
    (root : b.root = some (label height tree)) (represents : Represents b.io.nodes height tree) :
    records height tree = entries := by
  rcases holds with ⟨empty, _⟩ | ⟨other, otherTree, otherRoot, again, same, _⟩
  · simp [empty] at root
  · have unique := represents.unique again (Option.some.inj (root.symm.trans otherRoot))
    cases unique
    exact same

theorem createRoot_atomic_iff (empty : b.root = none) :
    FailureIsAtomic b id rrn [] ↔ b.io.ioFails b.io.writes = false := by
  have whole : bInsert residentPager b id rrn =
      createRoot residentPager b { id := id, dataRegisterRrn := rrn } := by
    rw [bInsert, empty]
  rw [FailureIsAtomic, whole, createRoot_resident]
  constructor
  · intro atomic
    by_contra fails
    rw [Bool.not_eq_false] at fails
    have holds := atomic _ .errorIo (Prod.ext rfl (by simp only [fails, ↓reduceIte])) (by decide)
    have same := @HoldsEntries.records_eq _ 0
      (Leaf.mk (getFreeRrn b.io.freeRrn).1 [{ id := id, dataRegisterRrn := rrn }] noRrn) _ holds rfl
      (by simp [Represents])
    simp [records_leaf] at same
  · rintro works after status same negative
    simp only [works, Bool.false_eq_true, ↓reduceIte, Prod.mk.injEq, Option.some.injEq] at same
    rw [← same.2] at negative
    exact absurd negative (by decide)

/-- A failed write of a node that an insertion cuts loses the upper half of the node, and the
failed write of the node that takes the key leaves the key in the tree. -/
theorem bInsert_atomic_iff (three : 3 ≤ b.config.order)
    (distinct : DistinctRrns (bInsert residentPager b id rrn).1.io.created) :
    (b.root = none → (FailureIsAtomic b id rrn [] ↔ b.io.ioFails b.io.writes = false)) ∧
    ∀ height tree, ValidBTree b height tree → (∀ rrn ∈ labels height tree, rrn ∈ b.io.created) →
      (FailureIsAtomic b id rrn (records height tree) ↔
        Meets Key.id id height tree ∨
        (∀ n < stores Key.id b.config.order { id := id, dataRegisterRrn := rrn } height tree,
          b.io.ioFails (b.io.writes + n) = false) ∨
        LosesOnlyNew Key.id b.config.order { id := id, dataRegisterRrn := rrn } height tree ∧
          ∃ n < 2, b.io.ioFails (b.io.writes + n) = true) := by
  refine ⟨createRoot_atomic_iff, fun height tree valid created => ?_⟩
  have stored := valid.stored
  have post := bInsert_post three valid.root ⟨stored, created⟩ distinct
  rw [FailureIsAtomic]
  generalize bInsert residentPager b id rrn = result at post
  cases post with
  | duplicate meets =>
      refine iff_of_true ?_ (Or.inl meets)
      rintro after status same negative
      obtain rfl : b = after := congrArg Prod.fst same
      exact holdsEntries_of_represents valid.root valid.represents stored.inOrder
  | grown grows root config represents changes written =>
      refine iff_of_true ?_ (Or.inr (Or.inl written))
      rintro after status same negative
      obtain rfl : BtreeStatus.success = status := Option.some.inj (congrArg Prod.snd same)
      exact absurd negative (by decide)
  | exits inserts written failed =>
      refine iff_of_true ?_ (Or.inr (Or.inl (by rwa [inserts.stores_halves])))
      rintro after status same negative
      exact absurd (congrArg Prod.snd same) (by simp)
  | @failed after rest fresh n stops represents changes written failed =>
      have label : PagedTree.label height rest = PagedTree.label height tree := stops.label
      have root : b.root = some (PagedTree.label height rest) := by rw [label, valid.root]
      have kept := stops.records_eq_iff three stored.inOrder stored.filled
      have first : (∃ m < 2, b.io.ioFails (b.io.writes + m) = true) ↔ n < 2 := by
        constructor
        · rintro ⟨m, few, fails⟩
          by_contra many
          simp [written m (by omega)] at fails
        · exact fun few => ⟨n, few, failed⟩
      have interrupted : ¬∀ m < stores Key.id b.config.order
          { id := id, dataRegisterRrn := rrn } height tree,
          b.io.ioFails (b.io.writes + m) = false := by
        intro works
        simp [works n stops.stored_lt] at failed
      rw [first, ← kept, or_iff_right (stops.not_meets stored.inOrder), or_iff_right interrupted]
      constructor
      · intro atomic
        exact (atomic _ _ rfl (by decide)).records_eq root represents
      · rintro same left status returned negative
        obtain rfl : { b with io := after } = left := congrArg Prod.fst returned
        rw [← same]
        exact holdsEntries_of_represents root represents (stops.inOrder stored.inOrder)

end Failure

def twoTree : BTree Resident Rrn :=
  insertAll residentPager (allocTreeBuf smallConfig [1, 2, 3] fun n => n == 2)
    [(singleId 97, 1), (singleId 99, 3)]

def twoKeys : List Key :=
  [{ id := singleId 97, dataRegisterRrn := 1 }, { id := singleId 99, dataRegisterRrn := 3 }]

theorem twoTree_valid : ValidBTree twoTree 0 (Leaf.mk 1 twoKeys noRrn) where
  root := by decide
  represents := by
    have found : twoTree.io.nodes 1 = some (leafNode (Leaf.mk 1 twoKeys noRrn)) := by decide
    exact found
  search := by
    have sorted : twoKeys.Pairwise fun left right => left.id < right.id := by decide
    exact sorted
  named := by decide
  filled := by
    have count : 0 ≤ twoKeys.length ∧ twoKeys.length ≤ 2 := by decide
    exact count
  linked := by simp [leaves, Linked]
  distinct := by decide

theorem bInsert_atomic_iff_two :
    FailureIsAtomic twoTree (singleId 98) 2 twoKeys ↔
      Meets Key.id (singleId 98) 0 (Leaf.mk (1 : Rrn) twoKeys noRrn) ∨
      (∀ n < stores Key.id 3 { id := singleId 98, dataRegisterRrn := 2 } 0
        (Leaf.mk (1 : Rrn) twoKeys noRrn), twoTree.io.ioFails (twoTree.io.writes + n) = false) ∨
      LosesOnlyNew Key.id 3 { id := singleId 98, dataRegisterRrn := 2 } 0
        (Leaf.mk (1 : Rrn) twoKeys noRrn) ∧
        ∃ n < 2, twoTree.io.ioFails (twoTree.io.writes + n) = true :=
  (bInsert_atomic_iff (by decide) (by decide)).2 0 (Leaf.mk 1 twoKeys noRrn) twoTree_valid
    fun rrn member => by
      obtain rfl := List.mem_singleton.mp member
      decide

def keptKeys : List Key :=
  [{ id := singleId 97, dataRegisterRrn := 1 }, { id := singleId 98, dataRegisterRrn := 2 }]

/-- When the write of the lower half fails, the third key between two loses the last one. -/
theorem failed_insert_loses_last :
    ValidBTree twoTree 0 (Leaf.mk 1 twoKeys noRrn) ∧
      ¬FailureIsAtomic twoTree (singleId 98) 2 twoKeys := by
  refine ⟨twoTree_valid, fun atomic => ?_⟩
  obtain ⟨after, done⟩ : ∃ after, bInsert residentPager twoTree (singleId 98) 2 = after := ⟨_, rfl⟩
  have status : after.2 = some .errorIo := by
    rw [← done]
    decide +kernel
  have root : after.1.root = some 1 := by
    rw [← done]
    decide +kernel
  have represents : after.1.io.nodes 1 = some (leafNode (Leaf.mk 1 keptKeys 2)) := by
    rw [← done]
    decide +kernel
  have holds := atomic after.1 .errorIo (done.trans (Prod.ext rfl status)) (by decide)
  have same := @HoldsEntries.records_eq _ 0 (Leaf.mk 1 keptKeys 2) _ holds root represents
  exact absurd same (by decide)

end Gaveta
