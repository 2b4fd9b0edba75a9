import Gaveta.BTree.Dictionary

/-! How many nodes a search loads, against the number of keys. -/

namespace Gaveta

open PagedTree

/-- The storage with a count of the calls of `load_btree_node` that return a node. -/
def counted {σ ρ : Type} (pager : Pager σ ρ) : Pager (σ × Nat) ρ where
  node s := pager.node s.1
  setNode s p node := (pager.setNode s.1 p node, s.2)
  allocBtreeNode s node :=
    let allocated := pager.allocBtreeNode s.1 node
    ((allocated.1, s.2), allocated.2)
  clearBtreeNode s p := (pager.clearBtreeNode s.1 p, s.2)
  cached s := pager.cached s.1
  loadBtreeNode held s rrn :=
    let loaded := pager.loadBtreeNode held s.1 rrn
    ((loaded.1, if loaded.2.isSome then s.2 + 1 else s.2), loaded.2)
  writeIndexRecord held s p :=
    let written := pager.writeIndexRecord held s.1 p
    ((written.1, s.2), written.2)
  getFreeRrn s :=
    let taken := pager.getFreeRrn s.1
    ((taken.1, s.2), taken.2)
  insertFreeRrn s rrn := (pager.insertFreeRrn s.1 rrn, s.2)
  writeTombstone s rrn :=
    let marked := pager.writeTombstone s.1 rrn
    ((marked.1, s.2), marked.2)

def searchLoads {σ ρ : Type} [DecidableEq ρ] (pager : Pager σ ρ) (b : BTree σ ρ) (id : CString) :
    Nat :=
  (bSearch (counted pager) { root := b.root, config := b.config, io := (b.io, 0) } id).1.io.2

section Search

variable {order least fuel height count : Nat} {root : Option Rrn} {held : List Rrn} {s : Resident}
  {id : CString}

theorem counted_plug {name : Rrn} {before : List (Tree Rrn Key height × Key)}
    {child : Tree Rrn Key height} {after : List (Key × Tree Rrn Key height)}
    (stored : Stored order least s (height + 1) (Branch.plug name before child after))
    (found : searchInBtreeNode (s.read name) id = (.notFoundKey, before.length)) :
    searchKey (counted residentPager) root (fuel + 1) held (s, count) name id =
      searchKey (counted residentPager) root fuel (name :: held) (s, count + 1)
        (label height child) id := by
  obtain ⟨branch, slot, loaded⟩ := stored.enter
  have kept : ∀ (t : Resident × Nat) p, dropUncached (counted residentPager) root t p = t := by
    intro t p
    simp [dropUncached, counted]
  rw [searchKey]
  simp only [kept]
  simp only [counted, residentPager_node, found, branch, slot, residentPager_load, loaded,
    reduceCtorEq, Bool.false_eq_true, ↓reduceIte, Option.isSome_some]

theorem counted_search {tree : Tree Rrn Key height} (stored : Stored order least s height tree)
    (deep : height < fuel) :
    ∃ loads, (searchKey (counted residentPager) root fuel held (s, count) (label height tree) id).1 =
        (s, count + loads) ∧ loads ≤ height ∧
      (¬MeetsSeparator Key.id id height tree → loads = height) := by
  induction height generalizing fuel held least count with
  | zero =>
      obtain ⟨fuel, rfl⟩ : ∃ rest, fuel = rest + 1 := ⟨fuel - 1, by omega⟩
      have leaf : (s.read (label 0 tree)).leaf = true := by
        rw [label, stored.represents.leaf, leafNode]
      refine ⟨0, ?_, le_rfl, fun _ => rfl⟩
      rw [searchKey]
      simp only [counted, residentPager_node, leaf, ↓reduceIte]
      split_ifs <;> rfl
  | succ height ih =>
      obtain ⟨fuel, rfl⟩ : ∃ rest, fuel = rest + 1 := ⟨fuel - 1, by omega⟩
      rcases stored.branch_search id with
        ⟨separator, member, same, found⟩ | ⟨before, child, after, plugged, lower, upper, found⟩
      · refine ⟨0, ?_, Nat.zero_le _, fun passes => absurd (Or.inl ⟨separator, member, same⟩) passes⟩
        rw [searchKey]
        simp only [counted, residentPager_node, found, ↓reduceIte, Nat.add_zero]
      · generalize Branch.label tree = name at plugged
        subst plugged
        simp only [label, Branch.plug_label] at found ⊢
        have inner : Stored order _ s height child := stored.child (by simp)
        obtain ⟨loads, reached, most, exact⟩ :=
          @ih _ fuel (count + 1) (name :: held) child inner (by omega)
        refine ⟨loads + 1, ?_, by omega, fun passes => ?_⟩
        · rw [counted_plug stored found, reached, Nat.add_assoc, Nat.add_comm 1]
        · rw [meetsSeparator_plug Key.id name child lower upper] at passes
          rw [exact passes]

variable {b : BTree Resident Rrn} {tree : Tree Rrn Key height}

theorem bSearch_io {σ ρ : Type} [DecidableEq ρ] {pager : Pager σ ρ} {b : BTree σ ρ} {top : ρ}
    (rooted : b.root = some top) :
    (bSearch pager b id).1.io = (searchKey pager b.root depthLimit [] b.io top id).1 := by
  rw [bSearch, rooted]
  dsimp only
  split
  · rfl
  · split_ifs <;> rfl

theorem searchLoads_stored (rooted : b.root = some (label height tree))
    (stored : Stored order least b.io height tree) :
    searchLoads residentPager b id ≤ height ∧
      (¬MeetsSeparator Key.id id height tree → searchLoads residentPager b id = height) := by
  obtain ⟨loads, reached, most, exact⟩ :=
    @counted_search order least depthLimit height 0 b.root [] b.io id tree stored
      (height_lt_depthLimit stored.distinct)
  have same : searchLoads residentPager b id = loads := by
    have top : (BTree.mk b.root b.config (b.io, 0)).root = some (label height tree) := rooted
    rw [searchLoads, bSearch_io top, reached]
    exact Nat.zero_add loads
  rw [same]
  exact ⟨most, exact⟩

end Search

theorem DictionaryState.loads {order : Nat} {b : BTree Resident Rrn} {keys : List Key}
    (state : DictionaryState order b keys) (three : 3 ≤ order) :
    ∃ height, height ≤ Nat.log ((order + 1) / 2) keys.length ∧
      keys.length ≤ (order - 1) * order ^ height ∧
      ∀ id, searchLoads residentPager b id ≤ height ∧
        (¬SeparatorOf b id → searchLoads residentPager b id = height) := by
  obtain ⟨rfl, _, ⟨empty, rfl⟩ | ⟨height, tree, held⟩⟩ := state
  · have none : ∀ id, searchLoads residentPager b id = 0 := by
      intro id
      rw [searchLoads, bSearch, empty]
    exact ⟨0, Nat.zero_le _, Nat.zero_le _, fun id => ⟨(none id).le, fun _ => none id⟩⟩
  · have low := held.topFilled.height_le (by omega)
    have high := held.valid.filled.records_le
    have least : (b.config.order - 1) / 2 + 1 = (b.config.order + 1) / 2 := by omega
    have most : b.config.order - 1 + 1 = b.config.order := by omega
    rw [held.records] at low high
    rw [least] at low
    rw [most] at high
    refine ⟨height, low, high, fun id => ?_⟩
    obtain ⟨bound, exact⟩ := @searchLoads_stored _ _ _ id b tree held.valid.root held.valid.stored
    exact ⟨bound, fun passes => exact fun meets => passes (held.valid.separatorOf_iff.mpr meets)⟩

end Gaveta
