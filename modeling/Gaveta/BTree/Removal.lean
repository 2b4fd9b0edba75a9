import Gaveta.BTree.Lookup
import Gaveta.BTree.RemoveStep

/-! `b_remove` on valid trees: when the tree below the root is again one for the other keys. -/

namespace Gaveta

open PagedTree

def without (id : CString) (leaf : Leaf Rrn Key) : Leaf Rrn Key :=
  { leaf with records := leaf.records.filter fun key => key.id ≠ id }

/-- What a removal should leave: a search tree of the other keys, each found by the descent,
chained in order, with no child on the free list of the index. -/
def RemovalCorrect (keys : List Key) (id : CString) (b : BTree Resident Rrn) : Prop :=
  (b.root = none ∧ (keys.filter fun key => key.id ≠ id) = []) ∨
  ∃ height tree, b.root = some (label height tree) ∧ Represents b.io.nodes height tree ∧
    SearchTree Key.id height tree ∧
    records height tree = (keys.filter fun key => key.id ≠ id) ∧
    (∀ leaf ∈ leaves height tree, ∀ key ∈ leaf.records,
      descend Key.id key.id height tree = leaf) ∧
    (∀ rrn ∈ (labels height tree).tail, rrn ∉ b.io.freeRrn) ∧
    Linked (leaves height tree) noRrn

/-- The id is no separator, its leaf has no empty id, no child is or becomes free, and the leaf does
not underflow or has no sibling. -/
structure RemovesCleanly (b : BTree Resident Rrn) (id : CString) (height : Nat)
    (tree : Tree Rrn Key height) : Prop where
  passes : ¬MeetsSeparator Key.id id height tree
  marked : ∀ key ∈ (descend Key.id id height tree).records, key.id.isEmpty = false
  unlisted : ∀ rrn ∈ (labels height tree).tail, rrn ∉ b.io.freeRrn
  data : ∀ key ∈ records height tree, key.id = id →
    key.dataRegisterRrn ∉ (labels height tree).tail
  settled : siblings Key.id id height tree = 0 ∨
    (b.config.order - 1) / 2 < (descend Key.id id height tree).records.length

section Tree

variable {b after : BTree Resident Rrn} {height : Nat} {tree : Tree Rrn Key height} {id : CString}

theorem records_without (id : CString) (tree : Tree Rrn Key height) :
    records height (mapLeaves (without id) height tree) =
      (records height tree).filter fun key => key.id ≠ id := by
  rw [records_mapLeaves, records, List.filter_flatMap]
  rfl

theorem without_sublist (id : CString) (leaf : Leaf Rrn Key) :
    (without id leaf).records.Sublist leaf.records := List.filter_sublist

theorem removalCorrect_iff (valid : OrderedBTree b height tree)
    (root : after.root = some (label height tree))
    (represents : Represents after.io.nodes height (mapLeaves (without id) height tree)) :
    RemovalCorrect (records height tree) id after ↔
      ∀ rrn ∈ (labels height tree).tail, rrn ∉ after.io.freeRrn := by
  have named : ∀ leaf, (without id leaf).label = leaf.label := fun _ => rfl
  have top : label height (mapLeaves (without id) height tree) = label height tree :=
    label_mapLeaves named tree
  have names : labels height (mapLeaves (without id) height tree) = labels height tree :=
    labels_mapLeaves named tree
  have search := valid.search.mapLeaves (without_sublist id)
  constructor
  · rintro (⟨empty, _⟩ | ⟨other, otherTree, otherRoot, again, _, _, _, unlisted, _⟩)
    · rw [root] at empty
      cases empty
    · have same : label height (mapLeaves (without id) height tree) = label other otherTree := by
        rw [top]
        exact Option.some.inj (root.symm.trans otherRoot)
      cases represents.unique again same
      rwa [names] at unlisted
  · intro unlisted
    refine Or.inr ⟨height, mapLeaves (without id) height tree, by rw [root, top], represents, search,
      records_without id tree, ?_, by rwa [names], ?_⟩
    · exact fun leaf member key held =>
        descend_eq_of_mem Key.id search.inOrder member held
    · rw [leaves_mapLeaves]
      exact linked_map valid.linked named fun _ => rfl

theorem not_removalCorrect_unchanged (valid : OrderedBTree b height tree)
    (stored : ∃ key ∈ records height tree, key.id = id) :
    ¬RemovalCorrect (records height tree) id b := by
  obtain ⟨key, listed, same⟩ := stored
  rintro (⟨empty, _⟩ | ⟨other, otherTree, top, again, _, kept, _⟩)
  · rw [valid.root] at empty
    cases empty
  · cases valid.represents.unique again (Option.some.inj (valid.root.symm.trans top))
    rw [kept, List.mem_filter] at listed
    exact absurd same (by simpa using listed.2)

theorem filter_lost {before after : List Key} {key : Key}
    (sorted : (before ++ key :: after).Pairwise fun left right => left.id < right.id) :
    ((before ++ key :: after).filter fun other => other.id ≠ key.id) = before ++ after := by
  rw [List.pairwise_append, List.pairwise_cons] at sorted
  obtain ⟨_, ⟨upper, _⟩, lower⟩ := sorted
  rw [List.filter_append, List.filter_cons_of_neg (by simp)]
  congr 1
  · exact List.filter_eq_self.mpr fun other member => by
      simpa using ne_of_lt (lower other member key (by simp))
  · exact List.filter_eq_self.mpr fun other member => by
      simpa using ne_of_gt (upper other member)

theorem hasLeaf {s : Resident} {leaf : Leaf Rrn Key} (represents : Represents s.nodes height tree)
    (member : leaf ∈ leaves height tree) : HasLeaf s leaf.label := by
  have inside := represents.leaves leaf member
  have found : s.nodes leaf.label = some (leafNode leaf) := inside
  constructor
  · rw [inside.leaf, found]
  · rw [inside.leaf, leafNode]
  · rw [inside.leaf, leafNode]

theorem erase_represents {s : Resident} {before rest : List Key} {key : Key} {dataRrn : Rrn}
    (represents : Represents s.nodes height tree) (search : SearchTree Key.id height tree)
    (split : (descend Key.id key.id height tree).records = before ++ key :: rest) :
    Represents (erase s (descend Key.id key.id height tree).label (before ++ rest) dataRrn).nodes
      height (mapLeaves (without key.id) height tree) := by
  have leafMember := descend_mem Key.id key.id height tree
  generalize reached : descend Key.id key.id height tree = leaf at leafMember split
  have has := hasLeaf represents leafMember
  have change := LeafChange.store has (before ++ rest) (s.read leaf.label).nextLeaf
  rw [erase_nodes]
  have again := represents.reread change
  rwa [mapLeaves_congr fun other member => ?_] at again
  have found : s.nodes other.label = some (leafNode other) := represents.leaves other member
  by_cases own : other.label = leaf.label
  · have same : other = leaf := by
      have leafFound : s.nodes leaf.label = some (leafNode leaf) :=
        represents.leaves leaf leafMember
      rw [own, leafFound] at found
      exact (leafNode_injective (Option.some.inj found)).symm
    subst same
    have sorted := search.leaf_sorted Key.id member
    rw [split] at sorted
    have kept := filter_lost sorted
    rw [reread, Resident.store_nodes, Function.update_self, without, split, kept]
    dsimp only
    rw [(represents.leaves other member).leaf, leafNode]
  · have notHere : ∀ held ∈ other.records, held.id ≠ key.id := by
      intro held inside same
      have arrives := descend_eq_of_mem Key.id search.inOrder member inside
      rw [same, reached] at arrives
      exact own (congrArg Leaf.label arrives.symm)
    rw [reread, Resident.store_nodes, Function.update_of_ne own, found, without,
      List.filter_eq_self.mpr (by simpa using notHere)]
    rfl

theorem reread_records {s : Resident} {leaf : Leaf Rrn Key} (present : (s.nodes leaf.label).isSome) :
    (reread s.nodes leaf).records = (s.read leaf.label).keys := by
  obtain ⟨node, found⟩ := Option.isSome_iff_exists.mp present
  simp only [reread, Resident.read, found, Option.getD_some]

section Underflow

variable {before middle : Resident} {leaf : Leaf Rrn Key} {root : Rrn} {config : BtreeConfig}

theorem moved_not_correct {keys : List Key} {key : Key}
    (represents : Represents before.nodes height tree) (search : SearchTree Key.id height tree)
    (same : records height tree = keys.filter fun key => key.id ≠ id)
    (change : LeafChange before.nodes middle.nodes) (member : leaf ∈ leaves height tree)
    (held : key ∈ (before.read leaf.label).keys) (lost : key ∉ (middle.read leaf.label).keys) :
    ¬RemovalCorrect keys id
      { root := some (label height tree), config := config, io := middle } := by
  have inside := represents.leaves leaf member
  have found : before.nodes leaf.label = some (leafNode leaf) := inside
  rw [inside.leaf, leafNode] at held
  have listed : key ∈ records height tree := List.mem_flatMap.mpr ⟨leaf, member, held⟩
  rintro (⟨empty, _⟩ | ⟨other, otherTree, top, again, _, kept, arrives, _⟩)
  · cases empty
  · have moved := represents.reread change
    have named := label_mapLeaves (reread_label middle.nodes) tree
    cases moved.unique again (named.trans (Option.some.inj top))
    rw [same, ← kept] at listed
    obtain ⟨holder, holderMember, holds⟩ := List.mem_flatMap.mp listed
    rw [← arrives holder holderMember key holds, descend_mapLeaves,
      descend_eq_of_mem Key.id search.inOrder member held] at holds
    obtain ⟨changed, present, _⟩ := change _ _ found
    rw [reread_records (by rw [present]; rfl)] at holds
    exact lost holds

theorem merged_not_correct {keys : List Key} {freed : Rrn}
    (represents : Represents before.nodes height tree)
    (change : LeafChange before.nodes middle.nodes) (child : freed ∈ (labels height tree).tail)
    (listed : freed ∈ middle.freeRrn) :
    ¬RemovalCorrect keys id
      { root := some (label height tree), config := config, io := middle } := by
  rintro (⟨empty, _⟩ | ⟨other, otherTree, top, again, _, _, _, unlisted, _⟩)
  · cases empty
  · have named := label_mapLeaves (reread_label middle.nodes) tree
    cases (represents.reread change).unique again (named.trans (Option.some.inj top))
    refine unlisted freed ?_ listed
    rwa [labels_mapLeaves (reread_label middle.nodes)]

theorem leaf_siblings {tree : Tree Rrn Key (height + 1)} {p : Rrn}
    (valid : OrderedBTree b (height + 1) tree)
    (represents : Represents before.nodes (height + 1)
      (mapLeaves (without id) (height + 1) tree))
    (reached : (descend Key.id id (height + 1) tree).label = p) :
    ∃ name front back,
      parentOf p (height + 1) (mapLeaves (without id) (height + 1) tree) =
        some (name, front ++ p :: back) ∧
      front.length + back.length = siblings Key.id id (height + 1) tree ∧
      (front ++ p :: back).Nodup ∧
      (∀ other ∈ front ++ p :: back,
        other ∈ (labels (height + 1) (mapLeaves (without id) (height + 1) tree)).tail) ∧
      ∀ other ∈ front ++ p :: back,
        (∃ leaf ∈ leaves (height + 1) (mapLeaves (without id) (height + 1) tree),
          leaf.label = other) ∧
        HasLeaf before other ∧ (before.read other).keys.Nodup := by
  have distinct := valid.distinct.1
  rw [← labels_mapLeaves (f := without id) fun _ => rfl] at distinct
  have search := valid.search.mapLeaves (without_sublist id)
  have count := siblings_mapLeaves Key.id (without id) id (height + 1) tree
  obtain ⟨name, front, back, found, beside, leafLabels⟩ :=
    parentOf_descend Key.id id (mapLeaves (without id) (height + 1) tree) distinct
  have named : (descend Key.id id (height + 1) (mapLeaves (without id) (height + 1) tree)).label =
      p := by
    rw [descend_mapLeaves, ← reached]
    rfl
  rw [count] at beside
  rw [named] at found leafLabels
  obtain ⟨_, names, below⟩ := parentOf_some found distinct
  refine ⟨name, front, back, found, beside, names, below, fun other member => ?_⟩
  obtain ⟨leaf, leafMember, rfl⟩ := leafLabels other member
  refine ⟨⟨leaf, leafMember, rfl⟩, hasLeaf represents leafMember, ?_⟩
  rw [(represents.leaves leaf leafMember).leaf, leafNode]
  exact (search.leaf_sorted Key.id leafMember).imp fun below same =>
    ne_of_lt below (congrArg Key.id same)

theorem rebalance_correct {order : Nat} {p : Rrn} (valid : OrderedBTree b height tree)
    (represents : Represents before.nodes height (mapLeaves (without id) height tree))
    (works : ∀ n, before.ioFails n = false)
    (reached : (descend Key.id id height tree).label = p) (other : p ≠ label height tree) :
    (siblings Key.id id height tree = 0 ∧
      (rebalance residentPager order (label height tree) before p).1 = before) ∨
    (siblings Key.id id height tree ≠ 0 ∧ ¬RemovalCorrect (records height tree) id
      { root := some (label height tree), config := config,
        io := (rebalance residentPager order (label height tree) before p).1 }) := by
  cases height with
  | zero => exact absurd reached.symm other
  | succ height =>
      have top : label (height + 1) (mapLeaves (without id) (height + 1) tree) =
          label (height + 1) tree := label_mapLeaves (fun _ => rfl) tree
      have search := valid.search.mapLeaves (without_sublist id)
      obtain ⟨name, front, back, found, beside, names, below, leaf⟩ :=
        leaf_siblings valid represents reached
      have post := @rebalance_post before (label (height + 1) tree) p front back works
        (fun other member => (leaf other member).2) names order (height + 1) name _ represents top
        other (height_lt_depthLimit valid.distinct.1) found
      generalize rebalance residentPager order (label (height + 1) tree) before p = result at post
      cases post with
      | alone noLeft noRight =>
          subst noLeft noRight
          exact Or.inl ⟨beside.symm, rfl⟩
      | moved sibling change member held lost =>
          refine Or.inr ⟨?_, ?_⟩
          · simp only [ne_eq, ← List.length_eq_zero_iff] at sibling
            omega
          · obtain ⟨donor, donorMember, rfl⟩ := (leaf _ member).1
            have wrong := @moved_not_correct _ _ id before _ donor config _ _ represents search
              (records_without id tree) change donorMember held lost
            rwa [top] at wrong
      | merged sibling change member listed =>
          refine Or.inr ⟨?_, ?_⟩
          · simp only [ne_eq, ← List.length_eq_zero_iff] at sibling
            omega
          · have wrong := @merged_not_correct _ _ id before _ config (records (height + 1) tree) _
              represents change (below _ member) listed
            rwa [top] at wrong

end Underflow

theorem erase_unlisted_iff {s : Resident} {p dataRrn : Rrn} {keys : List Key} {names : List Rrn}
    (mark : noRrn ∉ names) :
    (∀ rrn ∈ names, rrn ∉ (erase s p keys dataRrn).freeRrn) ↔
      (∀ rrn ∈ names, rrn ∉ s.freeRrn) ∧ dataRrn ∉ names := by
  simp only [mem_erase_freeRrn]
  constructor
  · intro unlisted
    refine ⟨fun rrn member listed => unlisted rrn member (Or.inl listed), fun member => ?_⟩
    exact unlisted dataRrn member (Or.inr ⟨rfl, fun same => mark (same ▸ member)⟩)
  · rintro ⟨unlisted, outside⟩ rrn member (listed | ⟨rfl, _⟩)
    · exact unlisted rrn member listed
    · exact outside member

section Clean

variable {key : Key} {before rest : List Key} (valid : OrderedBTree b height tree)
include valid

theorem OrderedBTree.flat {leaf : Leaf Rrn Key} (member : leaf ∈ leaves height tree)
    (top : leaf.label = label height tree) : height = 0 := by
  cases height with
  | zero => rfl
  | succ height =>
      have child := leaf_label_tail member
      rw [top] at child
      exact absurd child (List.nodup_cons.mp valid.distinct.1).1

theorem OrderedBTree.only {other : Key} (held : key ∈ (descend Key.id key.id height tree).records)
    (listed : other ∈ records height tree) (same : other.id = key.id) : other = key := by
  obtain ⟨leaf, member, inside⟩ := List.mem_flatMap.mp listed
  have arrives := descend_eq_of_mem Key.id valid.search.inOrder member inside
  rw [same] at arrives
  rw [← arrives] at inside
  have sorted := valid.search.leaf_sorted Key.id (descend_mem Key.id key.id height tree)
  have ids := List.pairwise_map.mpr (sorted.imp ne_of_lt)
  exact List.inj_on_of_nodup_map ids inside held same

theorem OrderedBTree.search_stored {least : Nat} {id : CString}
    (arranged : Arranged b.config.order least b.io height tree)
    (passes : ¬MeetsSeparator Key.id id height tree)
    (marked : ∀ key ∈ (descend Key.id id height tree).records, key.id.isEmpty = false)
    (stored : ∃ key ∈ records height tree, key.id = id) :
    ∃ before key rest, (descend Key.id id height tree).records = before ++ key :: rest ∧
      key.id = id ∧ bSearch residentPager b id =
        (b, some (descend Key.id id height tree).label, before.length.toUInt16) := by
  rcases bSearch_descend valid.root arranged passes marked with found | ⟨absent, _⟩
  · exact found
  · obtain ⟨key, listed, same⟩ := stored
    obtain ⟨leaf, member, held⟩ := List.mem_flatMap.mp listed
    have arrives := descend_eq_of_mem Key.id valid.search.inOrder member held
    rw [same] at arrives
    rw [arrives] at absent
    exact absurd same (absent key held)

theorem removesCleanly_iff (passes : ¬MeetsSeparator Key.id key.id height tree)
    (marked : ∀ other ∈ (descend Key.id key.id height tree).records, other.id.isEmpty = false)
    (split : (descend Key.id key.id height tree).records = before ++ key :: rest) (p : Rrn)
    (keys : List Key) :
    RemovesCleanly b key.id height tree ↔
      (∀ rrn ∈ (labels height tree).tail,
        rrn ∉ (erase b.io p keys key.dataRegisterRrn).freeRrn) ∧
      (siblings Key.id key.id height tree = 0 ∨
        (b.config.order - 1) / 2 < (before ++ rest).length + 1) := by
  have held : key ∈ (descend Key.id key.id height tree).records := by simp [split]
  have listed : key ∈ records height tree :=
    List.mem_flatMap.mpr ⟨_, descend_mem Key.id key.id height tree, held⟩
  have mark : noRrn ∉ (labels height tree).tail := fun member =>
    valid.distinct.2 (List.mem_of_mem_tail member)
  have length : (descend Key.id key.id height tree).records.length =
      (before ++ rest).length + 1 := by
    simp only [split, List.length_append, List.length_cons]
    omega
  rw [erase_unlisted_iff mark, ← length]
  constructor
  · exact fun clean => ⟨⟨clean.unlisted, clean.data key listed rfl⟩, clean.settled⟩
  · rintro ⟨⟨unlisted, outside⟩, settled⟩
    refine ⟨passes, marked, unlisted, fun other member same => ?_, settled⟩
    rwa [valid.only held member same]

end Clean

theorem removal_descend_iff {key : Key} {before rest : List Key} (bound : b.config.order ≤ 99)
    (valid : OrderedBTree b height tree) (works : ∀ n, b.io.ioFails n = false)
    (passes : ¬MeetsSeparator Key.id key.id height tree)
    (marked : ∀ other ∈ (descend Key.id key.id height tree).records, other.id.isEmpty = false)
    (split : (descend Key.id key.id height tree).records = before ++ key :: rest)
    (searched : bSearch residentPager b key.id =
      (b, some (descend Key.id key.id height tree).label, before.length.toUInt16)) :
    RemovalCorrect (records height tree) key.id (bRemove residentPager b key.id).1 ↔
      RemovesCleanly b key.id height tree := by
  have leafMember := descend_mem Key.id key.id height tree
  have read := (valid.represents.leaves _ leafMember).leaf
  have represents := @erase_represents height tree b.io before rest key key.dataRegisterRrn
    valid.represents valid.search split
  have fails : ∀ n, (erase b.io (descend Key.id key.id height tree).label (before ++ rest)
      key.dataRegisterRrn).ioFails n = false := by
    rw [erase_ioFails]
    exact works
  have found := bRemove_found valid.root works searched
    (leaf_position valid.filled (by omega) leafMember split) (by rw [read, leafNode, split])
    (by rw [read, leafNode])
  rw [found, removesCleanly_iff valid passes marked split (descend Key.id key.id height tree).label
    (before ++ rest)]
  generalize erase b.io (descend Key.id key.id height tree).label (before ++ rest)
    key.dataRegisterRrn = erased at represents fails
  have settled := @removalCorrect_iff b { b with io := erased.wrote } height tree key.id valid
    valid.root represents
  dsimp only
  split_ifs with emptied underflow
  · have level := valid.flat leafMember emptied.1
    subst level
    have sorted := valid.search.leaf_sorted Key.id leafMember
    rw [split] at sorted
    refine iff_of_true (Or.inl ⟨rfl, ?_⟩) ⟨by simp [labels], Or.inl rfl⟩
    rw [records_leaf]
    rw [descend] at split
    rw [split, filter_lost sorted, emptied.2]
  · have outcome := @rebalance_correct b height tree key.id erased.wrote b.config b.config.order _
      valid represents fails rfl underflow.1
    rcases outcome with ⟨noSibling, same⟩ | ⟨sibling, wrong⟩
    · rw [same, settled]
      exact (and_iff_left (Or.inl noSibling)).symm
    · rw [← valid.root] at wrong
      refine iff_of_false wrong ?_
      rintro ⟨_, noSibling | many⟩
      · exact sibling noSibling
      · omega
  · rw [settled]
    refine (and_iff_left ?_).symm
    by_cases top : (descend Key.id key.id height tree).label = label height tree
    · have level := valid.flat leafMember top
      subst level
      exact Or.inl rfl
    · simp only [ne_eq, top, not_false_eq_true, true_and, not_lt] at underflow
      omega

end Tree

theorem ValidBTree.search_stored {b : BTree Resident Rrn} {height : Nat} {tree : Tree Rrn Key height}
    {id : CString} (valid : ValidBTree b height tree)
    (passes : ¬MeetsSeparator Key.id id height tree)
    (stored : ∃ key ∈ records height tree, key.id = id) :
    ∃ before key rest, (descend Key.id id height tree).records = before ++ key :: rest ∧
      key.id = id ∧ bSearch residentPager b id =
        (b, some (descend Key.id id height tree).label, before.length.toUInt16) :=
  valid.toOrderedBTree.search_stored valid.stored.toArranged passes
    (valid.marked (descend_mem Key.id id height tree)) stored

/-- On every B+ tree, removing a stored id is right exactly if the removal is clean. -/
theorem removal_correct_iff (b : BTree Resident Rrn) (height : Nat) (tree : Tree Rrn Key height)
    (id : CString) (three : 3 ≤ b.config.order) (bound : b.config.order ≤ 99)
    (valid : OrderedBTree b height tree) (works : ∀ n, b.io.ioFails n = false)
    (stored : ∃ key ∈ records height tree, key.id = id) :
    RemovalCorrect (records height tree) id (bRemove residentPager b id).1 ↔
      RemovesCleanly b id height tree := by
  have arranged := valid.arranged three
  by_cases meets : MeetsSeparator Key.id id height tree
  · refine iff_of_false ?_ fun clean => clean.passes meets
    have unchanged : (bRemove residentPager b id).1 = b := by
      rw [bRemove, valid.root]
      dsimp only
      rw [bSearch_separator valid.root arranged meets]
    rw [unchanged]
    exact not_removalCorrect_unchanged valid stored
  · by_cases marked : ∀ key ∈ (descend Key.id id height tree).records, key.id.isEmpty = false
    · obtain ⟨before, found, rest, split, rfl, searched⟩ :=
        valid.search_stored arranged meets marked stored
      exact removal_descend_iff bound valid works meets marked split searched
    · -- the search stops at the empty id and gives no position
      refine iff_of_false ?_ fun clean => marked clean.marked
      have unchanged : (bRemove residentPager b id).1 = b := by
        have empty : ∃ key ∈ (descend Key.id id height tree).records, key.id.isEmpty = true := by
          simpa using marked
        have leafMember := descend_mem Key.id id height tree
        have read := (valid.represents.leaves _ leafMember).leaf
        have few := arranged.filled.leaf_le _ leafMember
        have beyond : (descend Key.id id height tree).records[noPosition.toNat]? = none := by
          rw [List.getElem?_eq_none_iff]
          exact few.trans (by rw [noPosition]; simp; omega)
        rw [bRemove, valid.root]
        dsimp only
        rw [bSearch_marked valid.root arranged meets empty]
        simp only [residentPager_node, read, leafNode, beyond]
      rw [unchanged]
      exact not_removalCorrect_unchanged valid stored

def fiveEntries : List (CString × Rrn) :=
  [(singleId 97, 11), (singleId 98, 12), (singleId 99, 13), (singleId 100, 14), (singleId 101, 15)]

def fiveTree : BTree Resident Rrn :=
  insertAll residentPager
    (allocTreeBuf { smallConfig with order := 5 } [1, 2, 3] fun _ => false) fiveEntries

theorem fiveTree_run : RunState 5 fiveEntries fiveTree := by
  have distinct : DistinctRrns fiveTree.io.created := by decide +kernel
  exact (RunState.start { smallConfig with order := 5 } [1, 2, 3]).run (by decide) (by decide)
    distinct

theorem fiveTree_built : ∃ height tree, Built fiveEntries fiveTree height tree := by
  obtain ⟨_, _, ⟨empty, _⟩ | built⟩ := fiveTree_run
  · exact absurd empty (by decide)
  · exact built

theorem removal_correct_iff_five : ∃ height tree, OrderedBTree fiveTree height tree ∧
    (RemovalCorrect (records height tree) (singleId 97)
        (bRemove residentPager fiveTree (singleId 97)).1 ↔
      RemovesCleanly fiveTree (singleId 97) height tree) := by
  obtain ⟨height, tree, built⟩ := fiveTree_built
  have ordered := built.valid.toOrderedBTree
  refine ⟨height, tree, ordered, removal_correct_iff fiveTree height tree (singleId 97)
    (by decide +kernel) (by decide +kernel) ordered fiveTree_run.works
    ⟨⟨singleId 97, 11⟩, ?_, rfl⟩⟩
  exact (built.holds _).mpr (by decide)

def borrowedTree : Tree Rrn Key 1 :=
  { label := 3
    first :=
      { label := 1, records := [⟨singleId 97, 11⟩, ⟨singleId 98, 12⟩], next := 2 }
    rest :=
      [(⟨singleId 100, 14⟩,
        { label := 2, records := [⟨singleId 99, 13⟩, ⟨singleId 100, 14⟩], next := noRrn })] }

theorem borrowedTree_stored :
    Represents (bRemove residentPager fiveTree (singleId 101)).1.io.nodes 1 borrowedTree := by
  have leaves : ∀ leaf ∈ leaves 1 borrowedTree,
      (bRemove residentPager fiveTree (singleId 101)).1.io.nodes leaf.label =
        some (leafNode leaf) := by
    decide +kernel
  refine ⟨⟨noRrn, by decide +kernel⟩, fun child member => ?_⟩
  exact leaves child (List.mem_flatMap.mpr ⟨child, member, List.mem_singleton.mpr rfl⟩)

/-- Removing the last key borrows the third one from the left under an unchanged separator. -/
theorem removal_misplaces_third : ∃ height tree, OrderedBTree fiveTree height tree ∧
    (∃ key ∈ records height tree, key.id = singleId 101) ∧
    ¬RemovalCorrect (records height tree) (singleId 101)
      (bRemove residentPager fiveTree (singleId 101)).1 := by
  obtain ⟨height, tree, built⟩ := fiveTree_built
  refine ⟨height, tree, built.valid.toOrderedBTree,
    ⟨⟨singleId 101, 15⟩, (built.holds _).mpr (by decide), rfl⟩, ?_⟩
  have root : (bRemove residentPager fiveTree (singleId 101)).1.root = some 3 := by decide +kernel
  rintro (⟨empty, _⟩ | ⟨other, otherTree, top, again, _, _, arrives, _⟩)
  · rw [root] at empty
    cases empty
  · cases borrowedTree_stored.unique again (Option.some.inj (root.symm.trans top))
    have third := arrives _ (List.mem_cons_of_mem _ (List.mem_singleton.mpr rfl))
      ⟨singleId 99, 13⟩ (by decide)
    exact absurd (congrArg Leaf.label third) (by decide)

end Gaveta
