import Gaveta.BTree.Removal
import Mathlib.Data.List.Count
import Mathlib.Data.List.Basic

/-! What `b_remove` puts on the two lists of free record numbers. -/

namespace Gaveta

open PagedTree

/-- A tree with the free list of its data file, `io.data->free_rrn`. -/
structure Database where
  tree : BTree Resident Rrn
  dataFree : List Rrn

def Database.remove (d : Database) (id : CString) : Database :=
  { d with tree := (bRemove residentPager d.tree id).1 }

inductive Contents (b : BTree Resident Rrn) : List Rrn → List Key → Prop
  | empty (root : b.root = none) : Contents b [] []
  | tree (height : Nat) (tree : Tree Rrn Key height) (root : b.root = some (label height tree))
      (represents : Represents b.io.nodes height tree) :
      Contents b (labels height tree) (records height tree)

structure InUseNotFree (d : Database) (nodes : List Rrn) (keys : List Key) : Prop where
  index : ∀ rrn ∈ nodes, rrn ∉ d.tree.io.freeRrn
  data : ∀ key ∈ keys, key.dataRegisterRrn ∉ d.dataFree

/-- What a removal of `key` should do: no number in use becomes free, the data record of the key is
free once, and the list of the index gets each node that leaves the tree once. -/
def FreesProperly (before : Database) (nodes : List Rrn) (key : Key) (after : Database) : Prop :=
  ∃ remaining keys left,
    Contents after.tree remaining keys ∧ InUseNotFree after remaining keys ∧
    (key.dataRegisterRrn ≠ noRrn → after.dataFree.count key.dataRegisterRrn = 1) ∧
    left.Nodup ∧ (∀ rrn, rrn ∈ left ↔ rrn ∈ nodes ∧ rrn ∉ remaining) ∧
    after.tree.io.freeRrn.Perm (left ++ before.tree.io.freeRrn)

def Lends (b : BTree Resident Rrn) (p : Rrn) (height : Nat) (tree : Tree Rrn Key height) : Prop :=
  ∃ name before after other, parentOf p height tree = some (name, before ++ p :: after) ∧
    (before.getLast? = some other ∨ after.head? = some other) ∧
    (b.config.order - 1) / 2 < (b.io.read other).keysNum

/-- The removal has no record number to free: the key has no data record and is not the last one,
and its leaf keeps enough keys, has no sibling, or gets a key from one. -/
structure FreesNothing (b : BTree Resident Rrn) (key : Key) (height : Nat)
    (tree : Tree Rrn Key height) : Prop where
  noData : key.dataRegisterRrn = noRrn
  notLast : ¬(height = 0 ∧ records height tree = [key])
  settled : siblings Key.id key.id height tree = 0 ∨
    (b.config.order - 1) / 2 < (descend Key.id key.id height tree).records.length ∨
    Lends b (descend Key.id key.id height tree).label height tree

section Tree

variable {d : Database} {height : Nat} {tree : Tree Rrn Key height} {key : Key}

theorem Contents.unique {b : BTree Resident Rrn} {nodes : List Rrn} {keys : List Key}
    (contents : Contents b nodes keys) (root : b.root = some (label height tree))
    (represents : Represents b.io.nodes height tree) :
    nodes = labels height tree ∧ keys = records height tree := by
  cases contents with
  | empty none =>
      rw [root] at none
      cases none
  | tree other otherTree top again =>
      cases represents.unique again (Option.some.inj (root.symm.trans top))
      exact ⟨rfl, rfl⟩

theorem freesProperly_still {after : BTree Resident Rrn} {other : Tree Rrn Key height}
    (inUse : InUseNotFree d (labels height tree) (records height tree))
    (noData : key.dataRegisterRrn = noRrn) (root : after.root = some (label height other))
    (represents : Represents after.io.nodes height other)
    (names : labels height other = labels height tree)
    (keys : ∀ stored ∈ records height other, stored ∈ records height tree)
    (free : after.io.freeRrn = d.tree.io.freeRrn) :
    FreesProperly d (labels height tree) key { d with tree := after } := by
  refine ⟨labels height other, records height other, [], .tree height other root represents,
    ⟨fun rrn member => ?_, fun stored member => ?_⟩, fun given => absurd noData given,
    List.nodup_nil, fun rrn => ?_, ?_⟩
  · rw [names] at member
    rw [free]
    exact inUse.index rrn member
  · exact inUse.data stored (keys stored member)
  · simp [names]
  · rw [List.nil_append, free]

theorem freesProperly_without {after : Resident}
    (valid : ValidBTree d.tree height tree)
    (inUse : InUseNotFree d (labels height tree) (records height tree))
    (noData : key.dataRegisterRrn = noRrn)
    (represents : Represents after.nodes height (mapLeaves (without key.id) height tree))
    (free : after.freeRrn = d.tree.io.freeRrn) :
    FreesProperly d (labels height tree) key { d with tree := { d.tree with io := after } } := by
  have named : ∀ leaf, (without key.id leaf).label = leaf.label := fun _ => rfl
  refine freesProperly_still inUse noData
    (valid.root.trans (congrArg some (label_mapLeaves named tree).symm)) represents
    (labels_mapLeaves named tree) ?_ free
  intro stored member
  rw [records_without] at member
  exact List.mem_of_mem_filter member

theorem not_freesProperly_data {after : BTree Resident Rrn} {nodes : List Rrn} {keys : List Key}
    (inUse : InUseNotFree d nodes keys) (stored : key ∈ keys)
    (given : key.dataRegisterRrn ≠ noRrn) :
    ¬FreesProperly d nodes key { d with tree := after } := by
  rintro ⟨_, _, _, _, _, counted, _⟩
  have absent : d.dataFree.count key.dataRegisterRrn = 0 :=
    List.count_eq_zero.mpr (inUse.data key stored)
  have once : d.dataFree.count key.dataRegisterRrn = 1 := counted given
  omega

theorem not_freesProperly_emptied {after : BTree Resident Rrn} {nodes : List Rrn} {name : Rrn}
    (member : name ∈ nodes) (root : after.root = none)
    (free : after.io.freeRrn = d.tree.io.freeRrn) :
    ¬FreesProperly d nodes key { d with tree := after } := by
  rintro ⟨remaining, keys, left, contents, _, _, _, leaves, perm⟩
  have listed : name ∈ left := by
    refine (leaves name).mpr ⟨member, ?_⟩
    cases contents with
    | empty => simp
    | tree other otherTree top =>
        rw [root] at top
        cases top
  have length := perm.length_eq
  rw [free, List.length_append] at length
  have positive := List.length_pos_of_mem listed
  omega

theorem not_freesProperly_listed {after : BTree Resident Rrn} {nodes : List Rrn}
    {other : Tree Rrn Key height} {freed : Rrn} (root : after.root = some (label height other))
    (represents : Represents after.io.nodes height other) (inside : freed ∈ labels height other)
    (listed : freed ∈ after.io.freeRrn) :
    ¬FreesProperly d nodes key { d with tree := after } := by
  rintro ⟨remaining, keys, left, contents, inUse, _⟩
  have same := (contents.unique root represents).1
  exact inUse.index freed (same ▸ inside) listed

end Tree

section Underflow

variable {s : Resident} {root p : Rrn}

theorem redistribute_still {donor : Rrn} (fromLeft : Bool) (works : ∀ n, s.ioFails n = false)
    (different : donor ≠ p) :
    (redistribute residentPager root s donor p fromLeft).1.freeRrn = s.freeRrn ∧
      ∀ rrn key, key ∈ ((redistribute residentPager root s donor p fromLeft).1.read rrn).keys →
        key ∈ (s.read rrn).keys ∨ key ∈ (s.read donor).keys ∨ key ∈ (s.read p).keys := by
  obtain ⟨grown, known, result⟩ := @redistribute_resident s root donor p fromLeft works different
  rw [result]
  refine ⟨rfl, fun rrn key member => ?_⟩
  simp only [read_wrote, read_store] at member
  split_ifs at member with own
  · exact Or.inr (Or.inl ((List.dropLast_subset _) member))
  · exact Or.inr (Or.inl (List.mem_of_mem_tail member))
  · exact Or.inr (known key member)
  · exact Or.inl member

theorem beside_mem {before after : List Rrn} {other : Rrn}
    (next : before.getLast? = some other ∨ after.head? = some other) :
    other ∈ before ++ p :: after := by
  rw [List.mem_append, List.mem_cons]
  exact next.imp List.mem_of_getLast? fun head => Or.inr (List.mem_of_head? head)

theorem beside_ne {before after : List Rrn} {other : Rrn} (apart : p ∉ before ∧ p ∉ after)
    (next : before.getLast? = some other ∨ after.head? = some other) : other ≠ p := by
  rintro rfl
  exact next.elim (fun last => apart.1 (List.mem_of_getLast? last)) fun head =>
    apart.2 (List.mem_of_head? head)

section Siblings

variable {d : Database} {height : Nat} {tree : Tree Rrn Key (height + 1)} {key : Key}
  {front back : List Rrn} {donor left right : Rrn}
  (represents : Represents s.nodes (height + 1) (mapLeaves (without key.id) (height + 1) tree))
  (leaf : ∀ other ∈ front ++ p :: back,
    (∃ leaf ∈ leaves (height + 1) (mapLeaves (without key.id) (height + 1) tree),
      leaf.label = other) ∧
    HasLeaf s other ∧ (s.read other).keys.Nodup)
include represents leaf

theorem moved_stored {after : Resident} (change : LeafChange s.nodes after.nodes)
    (member : donor ∈ front ++ p :: back)
    (moved : ∀ rrn key, key ∈ (after.read rrn).keys →
      key ∈ (s.read rrn).keys ∨ key ∈ (s.read donor).keys ∨ key ∈ (s.read p).keys) :
    ∀ stored ∈ records (height + 1) (mapLeaves (reread after.nodes) (height + 1)
        (mapLeaves (without key.id) (height + 1) tree)),
      stored ∈ records (height + 1) (mapLeaves (without key.id) (height + 1) tree) := by
  have stored_of_read : ∀ leaf ∈ leaves (height + 1)
      (mapLeaves (without key.id) (height + 1) tree), ∀ {stored},
      stored ∈ (s.read leaf.label).keys →
        stored ∈ records (height + 1) (mapLeaves (without key.id) (height + 1) tree) := by
    intro leaf member stored held
    rw [(represents.leaves leaf member).leaf, leafNode] at held
    exact List.mem_flatMap.mpr ⟨leaf, member, held⟩
  intro stored listed
  obtain ⟨grown, grownMember, held⟩ := List.mem_flatMap.mp listed
  rw [leaves_mapLeaves] at grownMember
  obtain ⟨old, oldMember, rfl⟩ := List.mem_map.mp grownMember
  obtain ⟨changed, present, _⟩ := change _ _ (hasLeaf represents oldMember).present
  rw [reread_records (by rw [present]; rfl)] at held
  rcases moved old.label stored held with own | gave | took
  · exact stored_of_read old oldMember own
  · obtain ⟨giver, giverMember, named⟩ := (leaf donor member).1
    rw [← named] at gave
    exact stored_of_read giver giverMember gave
  · obtain ⟨taker, takerMember, named⟩ := (leaf p (by simp)).1
    rw [← named] at took
    exact stored_of_read taker takerMember took

variable (valid : ValidBTree d.tree (height + 1) tree) (works : ∀ n, s.ioFails n = false)
include valid works

theorem borrow_frees (fromLeft : Bool)
    (inUse : InUseNotFree d (labels (height + 1) tree) (records (height + 1) tree))
    (noData : key.dataRegisterRrn = noRrn) (free : s.freeRrn = d.tree.io.freeRrn)
    (member : donor ∈ front ++ p :: back) (different : donor ≠ p) :
    FreesProperly d (labels (height + 1) tree) key
      { d with tree := { d.tree with
        io := (redistribute residentPager (label (height + 1) tree) s donor p fromLeft).1 } } := by
  have named : ∀ leaf, (without key.id leaf).label = leaf.label := fun _ => rfl
  have change := @redistribute_change s (label (height + 1) tree) donor p fromLeft works different
    (leaf donor member).2.1 (leaf p (by simp)).2.1
  obtain ⟨kept, moved⟩ := @redistribute_still s (label (height + 1) tree) p donor fromLeft works
    different
  refine freesProperly_still inUse noData (valid.root.trans (congrArg some ?_))
    (represents.reread change) ?_ ?_ (kept.trans free)
  · rw [label_mapLeaves (reread_label _), label_mapLeaves named]
  · rw [labels_mapLeaves (reread_label _), labels_mapLeaves named]
  · intro stored listed
    have old := moved_stored represents leaf change member moved stored listed
    rw [records_without] at old
    exact List.mem_of_mem_filter old

theorem merge_not_frees (leftListed : left ∈ front ++ p :: back)
    (rightListed : right ∈ front ++ p :: back) (apart : right ≠ left)
    (below : right ∈
      (labels (height + 1) (mapLeaves (without key.id) (height + 1) tree)).tail) :
    ¬FreesProperly d (labels (height + 1) tree) key
      { d with tree := { d.tree with
        io := (merge residentPager (label (height + 1) tree) s left right).1 } } := by
  have named : ∀ leaf, (without key.id leaf).label = leaf.label := fun _ => rfl
  obtain ⟨merged, result, change, freed⟩ := @merge_spec s (label (height + 1) tree) left right
    works apart (leaf right rightListed).2.1 (leaf left leftListed).2.1
  rw [result]
  refine not_freesProperly_listed (valid.root.trans (congrArg some ?_))
    (represents.reread change) ?_ freed
  · rw [label_mapLeaves (reread_label _), label_mapLeaves named]
  · rw [labels_mapLeaves (reread_label _)]
    exact List.mem_of_mem_tail below

end Siblings

theorem rebalance_frees_iff {d : Database} {height : Nat} {tree : Tree Rrn Key height} {key : Key}
    (valid : ValidBTree d.tree height tree)
    (inUse : InUseNotFree d (labels height tree) (records height tree))
    (noData : key.dataRegisterRrn = noRrn)
    (represents : Represents s.nodes height (mapLeaves (without key.id) height tree))
    (works : ∀ n, s.ioFails n = false)
    (reached : (descend Key.id key.id height tree).label = p) (other : p ≠ label height tree)
    (same : ∀ rrn, rrn ≠ p → s.read rrn = d.tree.io.read rrn)
    (free : s.freeRrn = d.tree.io.freeRrn) :
    FreesProperly d (labels height tree) key
        { d with tree := { d.tree with
          io := (rebalance residentPager d.tree.config.order (label height tree) s p).1 } } ↔
      siblings Key.id key.id height tree = 0 ∨ Lends d.tree p height tree := by
  cases height with
  | zero => exact absurd reached.symm other
  | succ height =>
      have named : ∀ leaf, (without key.id leaf).label = leaf.label := fun _ => rfl
      have top := label_mapLeaves named tree
      obtain ⟨name, front, back, found, beside, names, below, leaf⟩ :=
        leaf_siblings valid.toOrderedBTree represents reached
      have apart : p ∉ front ∧ p ∉ back := by
        rw [List.nodup_middle, List.nodup_cons, List.mem_append, not_or] at names
        exact names.1
      have outcome := @rebalance_case s (label (height + 1) tree) p d.tree.config.order (height + 1)
        name front back _ represents top other (leaf p (by simp)).2.1.rrn
        (height_lt_depthLimit valid.distinct.1) found apart.1
      generalize rebalance residentPager d.tree.config.order (label (height + 1) tree) s p = result
        at outcome
      cases outcome with
      | alone noLeft noRight =>
          subst noLeft noRight
          exact iff_of_true (freesProperly_without valid inUse noData represents free)
            (Or.inl beside.symm)
      | @borrow donor fromLeft next enough =>
          refine iff_of_true ?_ (Or.inr ⟨name, front, back, donor, ?_, next, ?_⟩)
          · exact borrow_frees represents leaf valid works fromLeft inUse noData free
              (beside_mem next) (beside_ne apart next)
          · rw [← found, parentOf_mapLeaves named]
          · rwa [← same donor (beside_ne apart next)]
      | @merge left right sibling pair next few =>
          have member : sibling ∈ front ++ p :: back := beside_mem next
          have different : sibling ≠ p := beside_ne apart next
          refine iff_of_false ?_ ?_
          · rcases pair with ⟨rfl, rfl⟩ | ⟨rfl, rfl⟩
            · exact merge_not_frees represents leaf valid works member (by simp) different.symm
                (below _ (by simp))
            · exact merge_not_frees represents leaf valid works (by simp) member different
                (below _ member)
          · rintro (none | ⟨otherName, otherFront, otherBack, lender, foundAgain, lends, enough⟩)
            · have noFront : front = [] := List.eq_nil_of_length_eq_zero (by omega)
              have noBack : back = [] := List.eq_nil_of_length_eq_zero (by omega)
              simp [noFront, noBack] at next
            · rw [parentOf_mapLeaves named, foundAgain] at found
              simp only [Option.some.injEq, Prod.mk.injEq] at found
              obtain ⟨rfl, _, rfl⟩ := (List.append_cons_inj_of_notMem apart.1 apart.2).mp found.2.symm
              have little := few lender lends
              rw [same lender (beside_ne apart lends)] at little
              omega

end Underflow

section Remove

variable {d : Database} {height : Nat} {tree : Tree Rrn Key height} {key : Key}

theorem erase_freeRrn {s : Resident} {p dataRrn : Rrn} {keys : List Key}
    (noData : dataRrn = noRrn) : (erase s p keys dataRrn).freeRrn = s.freeRrn := by
  rw [erase, if_neg (not_not.mpr noData)]
  rfl

theorem erase_read_other {s : Resident} {p other dataRrn : Rrn} {keys : List Key}
    (different : other ≠ p) : (erase s p keys dataRrn).read other = s.read other := by
  rw [Resident.read, erase_nodes, Resident.store_nodes, Function.update_of_ne different,
    Resident.read]

theorem removal_frees_noData {before rest : List Key} (bound : d.tree.config.order ≤ 99)
    (valid : ValidBTree d.tree height tree) (works : ∀ n, d.tree.io.ioFails n = false)
    (inUse : InUseNotFree d (labels height tree) (records height tree))
    (split : (descend Key.id key.id height tree).records = before ++ key :: rest)
    (searched : bSearch residentPager d.tree key.id =
      (d.tree, some (descend Key.id key.id height tree).label, before.length.toUInt16))
    (noData : key.dataRegisterRrn = noRrn) :
    FreesProperly d (labels height tree) key (d.remove key.id) ↔
      FreesNothing d.tree key height tree := by
  have leafMember := descend_mem Key.id key.id height tree
  have read := (valid.represents.leaves _ leafMember).leaf
  have represents := @erase_represents height tree d.tree.io before rest key key.dataRegisterRrn
    valid.represents valid.search split
  have fails : ∀ n, (erase d.tree.io (descend Key.id key.id height tree).label (before ++ rest)
      key.dataRegisterRrn).ioFails n = false := by
    rw [erase_ioFails]
    exact works
  have free := @erase_freeRrn d.tree.io (descend Key.id key.id height tree).label
    key.dataRegisterRrn (before ++ rest) noData
  have same := fun other => @erase_read_other d.tree.io
    (descend Key.id key.id height tree).label other key.dataRegisterRrn (before ++ rest)
  have found := bRemove_found valid.root works searched
    (leaf_position valid.filled (by omega) leafMember split) (by rw [read, leafNode, split])
    (by rw [read, leafNode])
  have count : (descend Key.id key.id height tree).records.length =
      (before ++ rest).length + 1 := by
    simp only [split, List.length_append, List.length_cons]
    omega
  rw [Database.remove, found]
  generalize erase d.tree.io (descend Key.id key.id height tree).label (before ++ rest)
    key.dataRegisterRrn = erased at represents fails free same
  dsimp only
  split_ifs with emptied underflow
  · have level := valid.flat leafMember emptied.1
    subst level
    refine iff_of_false (not_freesProperly_emptied (label_mem_labels 0 tree) rfl free)
      fun nothing => nothing.notLast ⟨rfl, ?_⟩
    rw [records_leaf]
    rw [descend] at split
    have ends := List.append_eq_nil_iff.mp emptied.2
    rw [split, ends.1, ends.2]
    rfl
  · have outcome := @rebalance_frees_iff erased.wrote (descend Key.id key.id height tree).label d
      height tree key valid inUse noData represents fails rfl underflow.1 same free
    rw [outcome]
    constructor
    · refine fun settled => ⟨noData, fun last => ?_, settled.imp_right Or.inr⟩
      obtain ⟨rfl, _⟩ := last
      exact underflow.1 rfl
    · intro nothing
      refine nothing.settled.imp_right fun settled => settled.resolve_left ?_
      omega
  · refine iff_of_true (freesProperly_without valid inUse noData represents free)
      ⟨noData, fun last => ?_, ?_⟩
    · obtain ⟨rfl, only⟩ := last
      refine emptied ⟨rfl, ?_⟩
      rw [records_leaf] at only
      rw [descend, only] at count
      exact List.eq_nil_of_length_eq_zero (by simpa using count.symm)
    · by_cases top : (descend Key.id key.id height tree).label = label height tree
      · have level := valid.flat leafMember top
        subst level
        exact Or.inl rfl
      · simp only [ne_eq, top, not_false_eq_true, true_and, not_lt] at underflow
        exact Or.inr (Or.inl (by omega))

end Remove

/-- On every valid tree the removal of a key from its leaf frees the right numbers exactly if it has
none to free. -/
theorem removal_frees_iff (d : Database) (height : Nat) (tree : Tree Rrn Key height) (key : Key)
    (bound : d.tree.config.order ≤ 99) (valid : ValidBTree d.tree height tree)
    (works : ∀ n, d.tree.io.ioFails n = false) (stored : key ∈ records height tree)
    (removes : ¬MeetsSeparator Key.id key.id height tree)
    (inUse : InUseNotFree d (labels height tree) (records height tree)) :
    FreesProperly d (labels height tree) key (d.remove key.id) ↔
      FreesNothing d.tree key height tree := by
  obtain ⟨leaf, leafMember, held⟩ := List.mem_flatMap.mp stored
  have arrives := descend_eq_of_mem Key.id valid.search.inOrder leafMember held
  rcases valid.bSearch_descend removes with
    ⟨before, found, rest, split, same, searched⟩ | ⟨absent, _⟩
  · have inLeaf : found ∈ (descend Key.id key.id height tree).records := by simp [split]
    have listed : found ∈ records height tree :=
      List.mem_flatMap.mpr ⟨_, descend_mem Key.id key.id height tree, inLeaf⟩
    rw [← arrives] at held
    obtain rfl : found = key := valid.only held listed same
    by_cases noData : found.dataRegisterRrn = noRrn
    · exact removal_frees_noData bound valid works inUse split searched noData
    · exact iff_of_false (not_freesProperly_data inUse stored noData) fun nothing =>
        noData nothing.noData
  · rw [arrives] at absent
    exact absurd rfl (absent key held)

def pairTree : BTree Resident Rrn :=
  insertAll residentPager (allocTreeBuf smallConfig [1] fun _ => false)
    [(singleId 97, noRrn), (singleId 98, 12)]

def pairLeaf : Leaf Rrn Key where
  label := 1
  records := [⟨singleId 97, noRrn⟩, ⟨singleId 98, 12⟩]
  next := noRrn

theorem pairTree_valid : ValidBTree pairTree 0 pairLeaf where
  root := by decide
  represents := by
    have found : pairTree.io.nodes 1 = some (leafNode pairLeaf) := by decide
    exact found
  search := by
    have sorted : pairLeaf.records.Pairwise fun left right => left.id < right.id := by decide
    exact sorted
  named := by decide
  filled := by
    have count : 0 ≤ pairLeaf.records.length ∧ pairLeaf.records.length ≤ 2 := by decide
    exact count
  linked := by simp [leaves, Linked, pairLeaf]
  distinct := by decide

theorem pairTree_inUse : InUseNotFree { tree := pairTree, dataFree := [] } (labels 0 pairLeaf)
    (records 0 pairLeaf) := by
  have free : pairTree.io.freeRrn = [] := by decide
  exact ⟨by simp [free], by simp⟩

theorem removal_frees_iff_pair :
    FreesProperly { tree := pairTree, dataFree := [] } (labels 0 pairLeaf) ⟨singleId 97, noRrn⟩
        (Database.remove { tree := pairTree, dataFree := [] } (singleId 97)) ↔
      FreesNothing pairTree ⟨singleId 97, noRrn⟩ 0 pairLeaf :=
  removal_frees_iff { tree := pairTree, dataFree := [] } 0 pairLeaf ⟨singleId 97, noRrn⟩
    (by decide) pairTree_valid (fun _ => rfl) (by decide) id pairTree_inUse

/-- The number of the removed data record goes to the list of the index. -/
theorem data_rrn_freed_for_index :
    (Database.remove { tree := pairTree, dataFree := [] } (singleId 98)).tree.io.freeRrn = [12] ∧
    ¬FreesProperly { tree := pairTree, dataFree := [] } (labels 0 pairLeaf) ⟨singleId 98, 12⟩
      (Database.remove { tree := pairTree, dataFree := [] } (singleId 98)) := by
  refine ⟨by decide +kernel, not_freesProperly_data pairTree_inUse ?_ (by decide)⟩
  decide

end Gaveta
