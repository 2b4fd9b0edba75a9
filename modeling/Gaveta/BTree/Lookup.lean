import Gaveta.BTree.Search
import Gaveta.BTree.InsertRun

/-! `b_search` on stored trees: which ids it finds. -/

namespace Gaveta

open PagedTree

section Search

variable {order least fuel height : Nat} {root : Option Rrn} {held : List Rrn} {s : Resident}
  {id : CString}

theorem searchKey_found {p : Rrn} (found : (searchInBtreeNode (s.read p) id).1 = .foundKey) :
    searchKey residentPager root (fuel + 1) held s p id =
      (s, (searchInBtreeNode (s.read p) id).2.toUInt16, some p) := by
  simp [searchKey, found]

theorem searchKey_leaf {p : Rrn} (absent : (searchInBtreeNode (s.read p) id).1 ≠ .foundKey)
    (leaf : (s.read p).leaf = true) :
    searchKey residentPager root (fuel + 1) held s p id = (s, noPosition, some p) := by
  simp [searchKey, absent, leaf]

theorem searchKey_plug {name : Rrn} {before : List (Tree Rrn Key height × Key)}
    {child : Tree Rrn Key height} {after : List (Key × Tree Rrn Key height)}
    (arranged : Arranged order least s (height + 1) (Branch.plug name before child after))
    (found : searchInBtreeNode (s.read name) id = (.notFoundKey, before.length)) :
    searchKey residentPager root (fuel + 1) held s name id =
      searchKey residentPager root fuel (name :: held) s (label height child) id := by
  obtain ⟨branch, slot, loaded⟩ := arranged.enter
  simp only [searchKey, residentPager_node, found, branch, slot, residentPager_load, loaded,
    dropUncached_resident, reduceCtorEq, Bool.false_eq_true, ↓reduceIte]

theorem searchKey_separator {tree : Tree Rrn Key height}
    (arranged : Arranged order least s height tree) (deep : height < fuel)
    (meets : MeetsSeparator Key.id id height tree) :
    ∃ pos p, searchKey residentPager root fuel held s (label height tree) id = (s, pos, some p) ∧
      (s.read p).leaf = false := by
  induction height generalizing fuel held least with
  | zero => exact meets.elim
  | succ height ih =>
      obtain ⟨fuel, rfl⟩ : ∃ rest, fuel = rest + 1 := ⟨fuel - 1, by omega⟩
      rcases arranged.branch_search id with
        ⟨separator, member, same, found⟩ | ⟨before, child, after, plugged, lower, upper, found⟩
      · obtain ⟨next, read⟩ := arranged.represents.branch
        exact ⟨_, _, searchKey_found found, by rw [label, read, branchNode]⟩
      · generalize Branch.label tree = name at plugged
        subst plugged
        simp only [label, Branch.plug_label] at found ⊢
        have inner : Arranged order _ s height child := arranged.child (by simp)
        rw [searchKey_plug arranged found]
        exact ih inner (by omega) ((meetsSeparator_plug Key.id name child lower upper).mp meets)

theorem searchKey_descend {tree : Tree Rrn Key height}
    (arranged : Arranged order least s height tree) (deep : height < fuel)
    (passes : ¬MeetsSeparator Key.id id height tree) :
    ∃ rest path, searchKey residentPager root fuel held s (label height tree) id =
      searchKey residentPager root (rest + 1) path s (descend Key.id id height tree).label id := by
  induction height generalizing fuel held least with
  | zero => exact ⟨fuel - 1, held, by rw [Nat.sub_add_cancel deep]; rfl⟩
  | succ height ih =>
      obtain ⟨fuel, rfl⟩ : ∃ rest, fuel = rest + 1 := ⟨fuel - 1, by omega⟩
      rcases arranged.branch_search id with
        ⟨separator, member, same, found⟩ | ⟨before, child, after, plugged, lower, upper, found⟩
      · exact absurd (Or.inl ⟨separator, member, same⟩) passes
      · generalize Branch.label tree = name at plugged
        subst plugged
        simp only [label, Branch.plug_label] at found ⊢
        have inner : Arranged order _ s height child := arranged.child (by simp)
        rw [searchKey_plug arranged found, descend_plug Key.id name child lower upper]
        rw [meetsSeparator_plug Key.id name child lower upper] at passes
        exact ih inner (by omega) passes

variable {b : BTree Resident Rrn} {tree : Tree Rrn Key height}

theorem bSearch_separator (root : b.root = some (label height tree))
    (arranged : Arranged order least b.io height tree)
    (meets : MeetsSeparator Key.id id height tree) :
    bSearch residentPager b id = (b, none, noPosition) := by
  obtain ⟨pos, p, searched, branch⟩ := @searchKey_separator _ _ _ _ b.root [] _ _ _ arranged
    (height_lt_depthLimit arranged.distinct) meets
  rw [bSearch, root]
  dsimp only
  rw [← root, searched]
  simp [branch]

theorem bSearch_leaf (root : b.root = some (label height tree))
    (arranged : Arranged order least b.io height tree)
    (passes : ¬MeetsSeparator Key.id id height tree) :
    let leaf := descend Key.id id height tree
    let found := searchFrom id leaf.records 0
    bSearch residentPager b id =
      (b, some leaf.label, if found.1 = .foundKey then found.2.toUInt16 else noPosition) := by
  have read := (arranged.represents.leaves _ (descend_mem Key.id id height tree)).leaf
  have isLeaf : (b.io.read (descend Key.id id height tree).label).leaf = true := by
    rw [read, leafNode]
  have inside : searchInBtreeNode (b.io.read (descend Key.id id height tree).label) id =
      searchFrom id (descend Key.id id height tree).records 0 := by
    rw [read, searchInBtreeNode, leafNode]
  obtain ⟨rest, path, searched⟩ := @searchKey_descend _ _ _ _ b.root [] _ _ _ arranged
    (height_lt_depthLimit arranged.distinct) passes
  rw [bSearch, root]
  dsimp only
  rw [← root, searched]
  by_cases found : (searchInBtreeNode (b.io.read (descend Key.id id height tree).label) id).1 =
      .foundKey
  · rw [searchKey_found found]
    rw [inside] at found
    simp [isLeaf, inside, found]
  · rw [searchKey_leaf found isLeaf]
    rw [inside] at found
    simp [isLeaf, found]

theorem bSearch_descend (root : b.root = some (label height tree))
    (arranged : Arranged order least b.io height tree)
    (passes : ¬MeetsSeparator Key.id id height tree)
    (marked : ∀ key ∈ (descend Key.id id height tree).records, key.id.isEmpty = false) :
    (∃ before key after, (descend Key.id id height tree).records = before ++ key :: after ∧
      key.id = id ∧ bSearch residentPager b id =
        (b, some (descend Key.id id height tree).label, before.length.toUInt16)) ∨
    (∀ key ∈ (descend Key.id id height tree).records, key.id ≠ id) ∧
      bSearch residentPager b id =
        (b, some (descend Key.id id height tree).label, noPosition) := by
  have searched := bSearch_leaf root arranged passes
  have sorted := arranged.inOrder.leaf_sorted Key.id (descend_mem Key.id id height tree)
  obtain ⟨before, after, split, lower, found⟩ :=
    searchFrom_spec id (descend Key.id id height tree).records 0 marked
  rcases found with ⟨key, rest, rfl, same, found⟩ | ⟨head, found⟩
  · exact Or.inl ⟨before, key, rest, split, same, by simp [searched, found]⟩
  · refine Or.inr ⟨fun key member => ?_, by simp [searched, found]⟩
    rw [split] at sorted member
    have upper := pairwise_head_lt ((List.pairwise_append.mp sorted).2.1.imp le_of_lt) head
    rcases List.mem_append.mp member with member | member
    · exact ne_of_lt (lower key member)
    · exact ne_of_gt (upper key member)

/-- The empty id is the least one, so it stands first in its leaf and ends every search there. -/
theorem bSearch_marked (root : b.root = some (label height tree))
    (arranged : Arranged order least b.io height tree)
    (passes : ¬MeetsSeparator Key.id id height tree)
    (marked : ∃ key ∈ (descend Key.id id height tree).records, key.id.isEmpty = true) :
    bSearch residentPager b id =
      (b, some (descend Key.id id height tree).label, noPosition) := by
  have sorted := arranged.inOrder.leaf_sorted Key.id (descend_mem Key.id id height tree)
  rw [bSearch_leaf root arranged passes]
  obtain ⟨key, member, empty⟩ := marked
  generalize (descend Key.id id height tree).records = keys at sorted member
  cases keys with
  | nil => cases member
  | cons first rest =>
      have least : first.id.isEmpty = true := by
        rcases List.mem_cons.mp member with rfl | later
        · exact empty
        · exact absurd ((List.pairwise_cons.mp sorted).1 key later)
            (CString.not_lt_of_isEmpty empty)
      simp [searchFrom, least]

end Search

theorem OrderedBTree.arranged {b : BTree Resident Rrn} {height : Nat} {tree : Tree Rrn Key height}
    (ordered : OrderedBTree b height tree) (three : 3 ≤ b.config.order) :
    Arranged b.config.order 0 b.io height tree where
  represents := ordered.represents
  inOrder := ordered.search.inOrder
  marked := by
    intro separator member
    cases height with
    | zero => cases member
    | succ height =>
        -- the child to its left has a key, which is below the separator
        have populated : Populated (height + 1) tree := .of_children fun child listed =>
          (ordered.filled.2 child listed).populated (by omega)
        obtain ⟨value, below⟩ :=
          ordered.search.separator_above Key.id populated separator member
        by_contra empty
        exact CString.not_lt_of_isEmpty (by simpa using empty) below
  filled := ordered.filled
  distinct := ordered.distinct.1

theorem ValidBTree.marked {b : BTree Resident Rrn} {height : Nat} {tree : Tree Rrn Key height}
    {leaf : Leaf Rrn Key} (valid : ValidBTree b height tree) (member : leaf ∈ leaves height tree) :
    ∀ key ∈ leaf.records, key.id.isEmpty = false :=
  fun key inside => valid.stored.named key (List.mem_flatMap.mpr ⟨leaf, member, inside⟩)

theorem ValidBTree.bSearch_descend {b : BTree Resident Rrn} {height : Nat}
    {tree : Tree Rrn Key height} {id : CString} (valid : ValidBTree b height tree)
    (passes : ¬MeetsSeparator Key.id id height tree) :
    (∃ before key after, (descend Key.id id height tree).records = before ++ key :: after ∧
      key.id = id ∧ bSearch residentPager b id =
        (b, some (descend Key.id id height tree).label, before.length.toUInt16)) ∨
    (∀ key ∈ (descend Key.id id height tree).records, key.id ≠ id) ∧
      bSearch residentPager b id =
        (b, some (descend Key.id id height tree).label, noPosition) :=
  Gaveta.bSearch_descend valid.root valid.stored.toArranged passes
    (valid.marked (descend_mem Key.id id height tree))

def StoredInLeaf (b : BTree Resident Rrn) (id : CString) : Prop :=
  ∃ height tree, OrderedBTree b height tree ∧ ∃ key ∈ records height tree, key.id = id

def SeparatorOf (b : BTree Resident Rrn) (id : CString) : Prop :=
  ∃ height tree, OrderedBTree b height tree ∧
    ∃ separator ∈ separators height tree, separator.id = id

def BesideEmptyId (b : BTree Resident Rrn) (id : CString) : Prop :=
  ∃ height tree, OrderedBTree b height tree ∧ ∃ leaf ∈ leaves height tree,
    (∃ key ∈ leaf.records, key.id = id) ∧ ∃ key ∈ leaf.records, key.id.isEmpty = true

/-- A lookup finds the id in a leaf exactly if a leaf stores it. -/
def LookupCorrect (b : BTree Resident Rrn) (id : CString) : Prop :=
  let answer := bSearch residentPager b id
  (StoredInLeaf b id → ∃ p key, answer.2.1 = some p ∧ (answer.1.io.read p).leaf = true ∧
    (answer.1.io.read p).keys[answer.2.2.toNat]? = some key ∧ key.id = id) ∧
  (¬StoredInLeaf b id → answer.2.1 = none ∨ answer.2.2 = noPosition)

theorem OrderedBTree.unique {b : BTree Resident Rrn} {height other : Nat}
    {tree : Tree Rrn Key height} {otherTree : Tree Rrn Key other}
    (ordered : OrderedBTree b height tree) (again : OrderedBTree b other otherTree) :
    (⟨height, tree⟩ : Sigma (Tree Rrn Key)) = ⟨other, otherTree⟩ :=
  ordered.represents.unique again.represents
    (Option.some.inj (ordered.root.symm.trans again.root))

theorem leaf_position {least low high height : Nat} {tree : Tree Rrn Key height}
    {leaf : Leaf Rrn Key} {before after : List Key} {key : Key}
    (filled : Filled least low high height tree) (small : high < 65536)
    (member : leaf ∈ leaves height tree) (split : leaf.records = before ++ key :: after) :
    (before.length.toUInt16).toNat = before.length := by
  have bound := filled.leaf_le leaf member
  rw [split, List.length_append, List.length_cons] at bound
  rw [Nat.toUInt16_eq, UInt16.toNat_ofNat']
  exact Nat.mod_eq_of_lt (by omega)

section Ordered

variable {b : BTree Resident Rrn} {height : Nat} {tree : Tree Rrn Key height} {id : CString}

theorem OrderedBTree.storedInLeaf_iff (ordered : OrderedBTree b height tree) :
    StoredInLeaf b id ↔ ∃ key ∈ (descend Key.id id height tree).records, key.id = id := by
  constructor
  · rintro ⟨other, otherTree, again, key, member, rfl⟩
    cases ordered.unique again
    obtain ⟨leaf, leafMember, inside⟩ := List.mem_flatMap.mp member
    rw [descend_eq_of_mem Key.id ordered.search.inOrder leafMember inside]
    exact ⟨key, inside, rfl⟩
  · rintro ⟨key, member, same⟩
    exact ⟨height, tree, ordered, key,
      List.mem_flatMap.mpr ⟨_, descend_mem Key.id id height tree, member⟩, same⟩

theorem OrderedBTree.separatorOf_iff (ordered : OrderedBTree b height tree) :
    SeparatorOf b id ↔ MeetsSeparator Key.id id height tree := by
  rw [meetsSeparator_iff Key.id id ordered.search.inOrder]
  refine ⟨?_, fun found => ⟨height, tree, ordered, found⟩⟩
  rintro ⟨other, otherTree, again, found⟩
  cases ordered.unique again
  exact found

theorem OrderedBTree.besideEmptyId_iff (ordered : OrderedBTree b height tree) :
    BesideEmptyId b id ↔ (∃ key ∈ (descend Key.id id height tree).records, key.id = id) ∧
      ∃ key ∈ (descend Key.id id height tree).records, key.id.isEmpty = true := by
  constructor
  · rintro ⟨other, otherTree, again, leaf, member, ⟨key, inside, rfl⟩, empty⟩
    cases ordered.unique again
    rw [descend_eq_of_mem Key.id ordered.search.inOrder member inside]
    exact ⟨⟨key, inside, rfl⟩, empty⟩
  · exact fun both => ⟨height, tree, ordered, _, descend_mem Key.id id height tree, both⟩

theorem lookup_empty (empty : b.root = none) (id : CString) :
    LookupCorrect b id ∧ ¬StoredInLeaf b id := by
  have nowhere : ¬StoredInLeaf b id := by
    rintro ⟨height, tree, ordered, _⟩
    have root := ordered.root
    rw [empty] at root
    cases root
  have none : (bSearch residentPager b id).2.1 = none := by
    rw [bSearch, empty]
  exact ⟨⟨fun stored => absurd stored nowhere, fun _ => Or.inl none⟩, nowhere⟩

theorem OrderedBTree.lookup_iff (ordered : OrderedBTree b height tree) (three : 3 ≤ b.config.order)
    (bound : b.config.order ≤ 99) :
    LookupCorrect b id ↔ (StoredInLeaf b id → ¬SeparatorOf b id ∧ ¬BesideEmptyId b id) := by
  have arranged := ordered.arranged three
  have leafMember := descend_mem Key.id id height tree
  have read := (arranged.represents.leaves _ leafMember).leaf
  rw [ordered.separatorOf_iff, ordered.besideEmptyId_iff, LookupCorrect, ordered.storedInLeaf_iff]
  by_cases meets : MeetsSeparator Key.id id height tree
  · rw [bSearch_separator ordered.root arranged meets]
    simp [meets]
  · by_cases marked : ∃ key ∈ (descend Key.id id height tree).records, key.id.isEmpty = true
    · -- the search stops at the empty id
      have few := arranged.filled.leaf_le _ leafMember
      have beyond : (leafNode (descend Key.id id height tree)).keys[noPosition.toNat]? = none := by
        rw [List.getElem?_eq_none_iff, leafNode]
        exact few.trans (by rw [noPosition]; simp; omega)
      rw [bSearch_marked ordered.root arranged meets marked]
      constructor
      · rintro ⟨complete, _⟩ stored
        obtain ⟨p, key, same, _, slot, _⟩ := complete stored
        obtain rfl := Option.some.inj same
        rw [read, beyond] at slot
        cases slot
      · intro clear
        exact ⟨fun stored => absurd ⟨stored, marked⟩ (clear stored).2, fun _ => Or.inr rfl⟩
    · have named : ∀ key ∈ (descend Key.id id height tree).records, key.id.isEmpty = false := by
        simpa using marked
      refine iff_of_true ?_ fun _ => ⟨meets, fun both => marked both.2⟩
      rcases bSearch_descend ordered.root arranged meets named with
        ⟨before, key, after, split, same, answer⟩ | ⟨absent, answer⟩
      · have position := leaf_position arranged.filled (by omega) leafMember split
        rw [answer]
        refine ⟨fun _ => ⟨_, key, rfl, by rw [read, leafNode], ?_, same⟩, fun missing => ?_⟩
        · rw [read, leafNode, position, split]
          simp
        · exact absurd ⟨key, by simp [split], same⟩ missing
      · rw [answer]
        refine ⟨?_, fun _ => Or.inr rfl⟩
        rintro ⟨key, member, same⟩
        exact absurd same (absent key member)

end Ordered

/-- On every B+ tree a lookup is right exactly for the ids that are not stored, and for those that
are neither a key of an internal node nor beside an empty id in their leaf. -/
theorem lookup_correct_iff (b : BTree Resident Rrn) (id : CString) (three : 3 ≤ b.config.order)
    (bound : b.config.order ≤ 99)
    (ordered : b.root = none ∨ ∃ height tree, OrderedBTree b height tree) :
    LookupCorrect b id ↔ (StoredInLeaf b id → ¬SeparatorOf b id ∧ ¬BesideEmptyId b id) := by
  rcases ordered with empty | ⟨height, tree, ordered⟩
  · obtain ⟨correct, nowhere⟩ := lookup_empty empty id
    exact iff_of_true correct fun stored => absurd stored nowhere
  · exact ordered.lookup_iff three bound

theorem threeTree_ordered : ∃ height tree, OrderedBTree threeTree height tree := by
  obtain ⟨_, _, ⟨empty, _⟩ | ⟨height, tree, built⟩⟩ :=
    (RunState.start smallConfig [1, 2, 3]).run (by decide) (by decide) threeTree_distinct
  · exact absurd empty (by decide)
  · exact ⟨height, tree, built.valid.toOrderedBTree⟩

theorem lookup_correct_iff_three : LookupCorrect threeTree (singleId 97) ↔
    (StoredInLeaf threeTree (singleId 97) →
      ¬SeparatorOf threeTree (singleId 97) ∧ ¬BesideEmptyId threeTree (singleId 97)) :=
  lookup_correct_iff threeTree (singleId 97) (by decide) (by decide) (Or.inr threeTree_ordered)

/-- The third of three keys is stored, but the search stops at the separator it was copied to. -/
theorem lookup_misses_third : StoredInLeaf threeTree (singleId 99) ∧
    (bSearch residentPager threeTree (singleId 99)).2.1 = none ∧
    ¬LookupCorrect threeTree (singleId 99) := by
  have missed : (bSearch residentPager threeTree (singleId 99)).2.1 = none := by decide +kernel
  have stored : StoredInLeaf threeTree (singleId 99) := by
    obtain ⟨_, _, ⟨empty, _⟩ | ⟨height, tree, built⟩⟩ :=
      (RunState.start smallConfig [1, 2, 3]).run (by decide) (by decide) threeTree_distinct
    · exact absurd empty (by decide)
    · exact ⟨height, tree, built.valid.toOrderedBTree, { id := singleId 99, dataRegisterRrn := 3 },
        (built.holds _).mpr (by decide), rfl⟩
  refine ⟨stored, missed, fun correct => ?_⟩
  obtain ⟨p, key, answer, _⟩ := correct.1 stored
  rw [missed] at answer
  cases answer

end Gaveta
