import Gaveta.BTree.InsertRun
import Gaveta.Library.LeafMap

/-! `b_range_search`: the data records that it visits. -/

namespace Gaveta

open PagedTree

structure KeyRange where
  startId : CString
  endId : CString

def rangeSlot (startId : CString) : List Key → Nat → Nat
  | [], i => i
  | key :: rest, i => if strcmp startId key.id < 0 then i else rangeSlot startId rest (i + 1)

def visitKeys (range : KeyRange) : List Key → List Rrn
  | [] => []
  | key :: rest =>
      if strcmp key.id range.endId > 0 then []
      else if strcmp key.id range.startId ≥ 0 then key.dataRegisterRrn :: visitKeys range rest
      else visitKeys range rest

def passedEnd (range : KeyRange) (node : BtreeNode) : Bool :=
  match node.keys with
  | [] => false
  | key :: _ => strcmp key.id range.endId > 0

section Search

variable {σ ρ : Type}

/-- The descent to a leaf; `some none` is a node that cannot be loaded. -/
def rangeLeaf (pager : Pager σ ρ) (startId : CString) : Nat → σ → ρ → Option (σ × Option ρ)
  | 0, _, _ => none
  | fuel + 1, s, curr =>
      if (pager.node s curr).leaf then some (s, some curr)
      else
        let slot := rangeSlot startId (pager.node s curr).keys 0
        let loaded := pager.loadBtreeNode [] s ((pager.node s curr).child slot)
        match loaded.2 with
        | none => some (loaded.1, none)
        | some next => rangeLeaf pager startId fuel loaded.1 next

def rangeScan (pager : Pager σ ρ) (range : KeyRange) : Nat → σ → ρ → Option (σ × List Rrn)
  | 0, _, _ => none
  | fuel + 1, s, curr =>
      if passedEnd range (pager.node s curr) then some (s, [])
      else
        let visited := visitKeys range (pager.node s curr).keys
        if (pager.node s curr).nextLeaf = noRrn then some (s, visited)
        else
          let loaded := pager.loadBtreeNode [] s (pager.node s curr).nextLeaf
          match loaded.2 with
          | none => some (loaded.1, visited)
          | some next =>
              (rangeScan pager range fuel loaded.1 next).map fun rest =>
                (rest.1, visited ++ rest.2)

/-- `b_range_search`: the tree and the rrns given to `load_data_record`, or nothing if one of the two
loops takes more turns than there are record numbers. -/
def bRangeSearch (pager : Pager σ ρ) (b : BTree σ ρ) (range : KeyRange) :
    Option (BTree σ ρ × List Rrn) :=
  match b.root with
  | none => some (b, [])
  | some root =>
      match rangeLeaf pager range.startId depthLimit b.io root with
      | none => none
      | some (s, none) => some ({ b with io := s }, [])
      | some (s, some leaf) =>
          (rangeScan pager range depthLimit s leaf).map fun found =>
            ({ b with io := found.1 }, found.2)

end Search

structure SearchableBTree (b : BTree Resident Rrn) (height : Nat) (tree : Tree Rrn Key height) :
    Prop where
  root : b.root = some (label height tree)
  represents : Represents b.io.nodes height tree
  search : SearchTree Key.id height tree
  linked : Linked (leaves height tree) noRrn
  distinct : DistinctRrns (labels height tree)

theorem ValidBTree.searchable {b : BTree Resident Rrn} {height : Nat} {tree : Tree Rrn Key height}
    (valid : ValidBTree b height tree) : SearchableBTree b height tree :=
  ⟨valid.root, valid.represents, valid.search, valid.linked, valid.distinct⟩

def KeyRange.holds (range : KeyRange) (key : Key) : Bool :=
  range.startId ≤ key.id ∧ key.id ≤ range.endId

section Keys

variable {range : KeyRange} {keys : List Key}

theorem rangeSlot_plug {startId : CString} {before after : List Key}
    (lower : ∀ key ∈ before, key.id ≤ startId) (upper : ∀ key ∈ after.head?, startId < key.id)
    (start : Nat) : rangeSlot startId (before ++ after) start = start + before.length := by
  induction before generalizing start with
  | nil =>
      cases after with
      | nil => rfl
      | cons key after =>
          have below := upper key (by simp)
          rw [List.nil_append, rangeSlot, if_pos ((strcmp_neg_iff _ _).mpr below)]
          rfl
  | cons key before ih =>
      have reached := lower key List.mem_cons_self
      have notBelow : ¬strcmp startId key.id < 0 := by
        rw [strcmp_neg_iff]
        exact not_lt.mpr reached
      rw [List.cons_append, rangeSlot, if_neg notBelow,
        ih (fun other member => lower other (List.mem_cons_of_mem _ member)), List.length_cons]
      omega

theorem filter_beyond (beyond : ∀ key ∈ keys, range.endId < key.id) :
    keys.filter range.holds = [] := by
  rw [List.filter_eq_nil_iff]
  intro key member
  simp only [KeyRange.holds, decide_eq_true_eq, not_and, not_le]
  exact fun _ => beyond key member

theorem sorted_beyond {key : Key}
    (sorted : (key :: keys).Pairwise fun left right => left.id < right.id)
    (beyond : range.endId < key.id) : ∀ other ∈ key :: keys, range.endId < other.id := by
  intro other member
  rcases List.mem_cons.mp member with rfl | member
  · exact beyond
  · exact beyond.trans ((List.pairwise_cons.mp sorted).1 other member)

theorem visitKeys_eq (sorted : keys.Pairwise fun left right => left.id < right.id) :
    visitKeys range keys = (keys.filter range.holds).map Key.dataRegisterRrn := by
  induction keys with
  | nil => rfl
  | cons key keys ih =>
      rw [visitKeys]
      by_cases beyond : range.endId < key.id
      · rw [if_pos ((strcmp_pos_iff _ _).mpr beyond),
          filter_beyond (sorted_beyond sorted beyond), List.map_nil]
      · have inside : ¬strcmp key.id range.endId > 0 := fun positive =>
          beyond ((strcmp_pos_iff _ _).mp positive)
        have rest := ih (List.pairwise_cons.mp sorted).2
        rw [if_neg inside]
        by_cases reached : range.startId ≤ key.id
        · have notBelow : strcmp key.id range.startId ≥ 0 :=
            not_lt.mp fun negative => not_lt.mpr reached ((strcmp_neg_iff _ _).mp negative)
          have holds : range.holds key = true := by
            simp [KeyRange.holds, reached, not_lt.mp beyond]
          rw [if_pos notBelow, List.filter_cons_of_pos holds, List.map_cons, rest]
        · have below : ¬strcmp key.id range.startId ≥ 0 :=
            not_le.mpr ((strcmp_neg_iff _ _).mpr (not_le.mp reached))
          have fails : ¬range.holds key = true := by simp [KeyRange.holds, reached]
          rw [if_neg below, List.filter_cons_of_neg fails, rest]

end Keys

section Tree

variable {height fuel : Nat} {s : Resident} {range : KeyRange}

theorem rangeLeaf_descend {tree : Tree Rrn Key height} (represents : Represents s.nodes height tree)
    (search : SearchTree Key.id height tree) (deep : height < fuel) (startId : CString) :
    rangeLeaf residentPager startId fuel s (label height tree) =
      some (s, some (descend Key.id startId height tree).label) := by
  induction height generalizing fuel with
  | zero =>
      obtain ⟨fuel, rfl⟩ := Nat.exists_eq_add_one_of_ne_zero (Nat.ne_of_gt deep)
      have leaf : (s.read (label 0 tree)).leaf = true := by rw [label, represents.leaf, leafNode]
      rw [rangeLeaf, residentPager_node, if_pos leaf]
      rfl
  | succ height ih =>
      obtain ⟨fuel, rfl⟩ := Nat.exists_eq_add_one_of_ne_zero (Nat.ne_of_gt (Nat.zero_lt_of_lt deep))
      obtain ⟨next, read⟩ := represents.branch
      obtain ⟨before, after, same, lower, upper⟩ := exists_plug_pick Key.id startId
        (Branch.label tree) (Branch.first tree) (Branch.rest tree)
      have picked := pick_mem Key.id startId (Branch.label tree) (Branch.first tree)
        (Branch.rest tree)
      have below := ih (represents.2 _ picked) (search.2.2 _ picked) (Nat.lt_of_succ_lt_succ deep)
      have separators := congrArg Branch.separators same
      have children := congrArg Branch.children same
      rw [Branch.plug_separators] at separators
      rw [Branch.plug_children] at children
      have slot : rangeSlot startId (Branch.separators tree) 0 = before.length := by
        refine (congrArg (rangeSlot startId · 0) separators).trans ?_
        rw [rangeSlot_plug, List.length_map, Nat.zero_add]
        · exact List.forall_mem_map.mpr lower
        · rw [List.head?_map]
          rintro key found
          obtain ⟨pair, head, rfl⟩ := Option.map_eq_some_iff.mp found
          exact upper pair head
      have child : (branchNode next tree).child before.length = label height
          (pick Key.id startId (Branch.first tree) (Branch.rest tree)) := by
        rw [BtreeNode.child, branchNode]
        refine (congrArg (fun names => (names.map (label height)).getD before.length noRrn)
          children).trans ?_
        simp
      rw [rangeLeaf, residentPager_node, label, read, if_neg (by simp [branchNode])]
      simp only [branchNode] at child ⊢
      simp only [slot, child, residentPager_load, (represents.2 _ picked).isSome, ↓reduceIte]
      exact below

theorem passedEnd_leaf {leaf : Leaf Rrn Key} (passed : passedEnd range (leafNode leaf) = true) :
    ∃ key rest, leaf.records = key :: rest ∧ range.endId < key.id := by
  rw [passedEnd, leafNode] at passed
  dsimp only at passed
  split at passed
  · cases passed
  · rename_i key rest records
    exact ⟨key, rest, records, (strcmp_pos_iff _ _).mp (of_decide_eq_true passed)⟩

theorem rangeScan_chain {leaf : Leaf Rrn Key} {chain : List (Leaf Rrn Key)}
    (represents : ∀ other ∈ leaf :: chain, Represents s.nodes 0 other)
    (linked : Linked (leaf :: chain) noRrn) (names : ∀ other ∈ leaf :: chain, other.label ≠ noRrn)
    (sorted : ((leaf :: chain).flatMap Leaf.records).Pairwise fun left right => left.id < right.id)
    (enough : chain.length < fuel) :
    rangeScan residentPager range fuel s leaf.label =
      some (s, (((leaf :: chain).flatMap Leaf.records).filter range.holds).map
        Key.dataRegisterRrn) := by
  induction chain generalizing leaf fuel with
  | nil =>
      obtain ⟨fuel, rfl⟩ := Nat.exists_eq_add_one_of_ne_zero (Nat.ne_of_gt enough)
      have read : s.read leaf.label = leafNode leaf := (represents leaf List.mem_cons_self).leaf
      have ends : leaf.next = noRrn := linked.1
      rw [List.flatMap_singleton] at sorted ⊢
      rw [rangeScan, residentPager_node, read]
      by_cases passed : passedEnd range (leafNode leaf) = true
      · obtain ⟨key, rest, records, beyond⟩ := passedEnd_leaf passed
        rw [records] at sorted ⊢
        rw [if_pos passed, filter_beyond (sorted_beyond sorted beyond), List.map_nil]
      · rw [if_neg passed]
        simp only [leafNode, ends, ↓reduceIte, visitKeys_eq sorted]
  | cons next chain ih =>
      obtain ⟨fuel, rfl⟩ := Nat.exists_eq_add_one_of_ne_zero (Nat.ne_of_gt (Nat.zero_lt_of_lt enough))
      have read : s.read leaf.label = leafNode leaf := (represents leaf List.mem_cons_self).leaf
      have later : ∀ {other}, other ∈ next :: chain → other ∈ leaf :: next :: chain :=
        fun member => List.mem_cons_of_mem _ member
      have follows : leaf.next = next.label := linked.1
      have stored : (s.nodes next.label).isSome = true :=
        (represents next (later List.mem_cons_self)).isSome
      have named := names next (later List.mem_cons_self)
      rw [List.flatMap_cons] at sorted ⊢
      have parts := List.pairwise_append.mp sorted
      have below := ih (fun other member => represents other (later member)) linked.2
        (fun other member => names other (later member)) parts.2.1 (Nat.lt_of_succ_lt_succ enough)
      rw [rangeScan, residentPager_node, read]
      by_cases passed : passedEnd range (leafNode leaf) = true
      · obtain ⟨key, rest, records, beyond⟩ := passedEnd_leaf passed
        rw [records, List.cons_append] at sorted ⊢
        rw [if_pos passed, filter_beyond (sorted_beyond sorted beyond), List.map_nil]
      · rw [if_neg passed]
        simp only [leafNode, follows, named, residentPager_load, stored, ↓reduceIte, below,
          Option.map_some, visitKeys_eq parts.1, List.filter_append, List.map_append]

end Tree

theorem inOrder_records {height : Nat} {tree : Tree Rrn Key height}
    (search : SearchTree Key.id height tree) :
    (records height tree).Pairwise fun left right => left.id < right.id := by
  rw [records_eq_filterMap]
  refine List.Pairwise.filterMap _ (fun left right before => ?_) search.inOrder
  intro value found other foundOther
  cases left with
  | separator _ => cases found
  | record left =>
      cases right with
      | separator _ => cases foundOther
      | record right =>
          cases found
          cases foundOther
          exact before

theorem leaves_lt_depthLimit {height : Nat} {tree : Tree Rrn Key height}
    (distinct : (labels height tree).Nodup) : (leaves height tree).length ≤ depthLimit := by
  have bound := distinct.length_le_card
  have card : Fintype.card Rrn = depthLimit := by
    rw [← FinEnum.card_eq_fintypeCard]
    rfl
  exact (length_leaves_le tree).trans (bound.trans_eq card)

/-- A range search visits the data records of the stored keys in the range, in ascending order and
each once. -/
theorem range_search_exact (b : BTree Resident Rrn) (height : Nat) (tree : Tree Rrn Key height)
    (valid : SearchableBTree b height tree) (range : KeyRange) :
    bRangeSearch residentPager b range =
        some (b, ((records height tree).filter range.holds).map Key.dataRegisterRrn) ∧
      (records height tree).Pairwise (fun left right => left.id < right.id) ∧
      (range.endId < range.startId → (records height tree).filter range.holds = []) := by
  have sorted := inOrder_records valid.search
  obtain ⟨before, after, split, lower⟩ :=
    leaves_descend Key.id valid.search.inOrder range.startId
  have leaf := rangeLeaf_descend valid.represents valid.search
    (height_lt_depthLimit valid.distinct.1) range.startId
  have inside : ∀ other ∈ descend Key.id range.startId height tree :: after,
      other ∈ leaves height tree := by
    intro other member
    rw [split]
    exact List.mem_append_right _ member
  have listed : records height tree = before.flatMap Leaf.records ++
      (descend Key.id range.startId height tree :: after).flatMap Leaf.records := by
    rw [records, split, List.flatMap_append]
  have linked := valid.linked
  rw [split, linked_append] at linked
  have count := leaves_lt_depthLimit valid.distinct.1
  rw [split, List.length_append, List.length_cons] at count
  rw [listed] at sorted ⊢
  have names : ∀ other ∈ descend Key.id range.startId height tree :: after,
      other.label ≠ noRrn := fun other member same =>
    valid.distinct.2 (same ▸ leaf_label_mem (inside other member))
  have scan := @rangeScan_chain depthLimit b.io range _ _
    (fun other member => valid.represents.leaves other (inside other member)) linked.2 names
    (List.pairwise_append.mp sorted).2.1 (by omega)
  have skipped : (before.flatMap Leaf.records).filter range.holds = [] := by
    rw [List.filter_eq_nil_iff]
    intro key member
    obtain ⟨other, otherMember, stored⟩ := List.mem_flatMap.mp member
    have below := lower other otherMember key stored
    simp [KeyRange.holds, not_le.mpr below]
  refine ⟨?_, sorted, fun empty => ?_⟩
  · rw [bRangeSearch, valid.root]
    dsimp only
    rw [leaf]
    dsimp only
    rw [scan, List.filter_append, skipped, List.nil_append, ← valid.root]
    rfl
  · rw [List.filter_eq_nil_iff]
    intro key _
    simp only [KeyRange.holds, decide_eq_true_eq, not_and, not_le]
    exact fun reached => empty.trans_le reached

theorem range_search_exact_three :
    bRangeSearch residentPager threeTree ⟨singleId 98, singleId 99⟩ = some (threeTree, [2, 3]) ∧
      ∃ height tree, SearchableBTree threeTree height tree ∧
        ((records height tree).filter (KeyRange.holds ⟨singleId 98, singleId 99⟩)).map
          Key.dataRegisterRrn = [2, 3] := by
  obtain ⟨_, _, ⟨empty, _⟩ | ⟨height, tree, built⟩⟩ :=
    (RunState.start smallConfig [1, 2, 3]).run (by decide) (by decide) threeTree_distinct
  · exact absurd empty (by decide)
  · have exact_ := (range_search_exact threeTree height tree built.valid.searchable
      ⟨singleId 98, singleId 99⟩).1
    have visited : (bRangeSearch residentPager threeTree ⟨singleId 98, singleId 99⟩).map Prod.snd =
        some [2, 3] := by decide +kernel
    rw [exact_] at visited
    have same := Option.some.inj visited
    dsimp only at same
    rw [exact_, same]
    exact ⟨rfl, height, tree, built.valid.searchable, same⟩

end Gaveta
