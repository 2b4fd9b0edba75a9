import Gaveta.BTree.LeafArrays
import Gaveta.BTree.Removal

/-! The keys in a row of leaves under the rebalancing of `b_remove`. -/

namespace Gaveta

open LeafArrays hiding redistribute merge
open PagedTree

section Calls

variable {s : Resident} {root donor receiver left right : Rrn}

structure PairStored (s after : Resident) (one two : Rrn) (oneKeys twoKeys : List Key) : Prop where
  first : (after.read one).keys = oneKeys
  second : (after.read two).keys = twoKeys
  others : ∀ rrn, rrn ≠ one → rrn ≠ two → after.read rrn = s.read rrn

theorem redistribute_stores (fromLeft : Bool) (different : donor ≠ receiver)
    (nonempty : 0 < (s.read donor).keysNum) (fits : (s.read donor).keysNum < 256)
    (room : (s.read receiver).keysNum < 255) :
    PairStored s (redistribute residentPager root s donor receiver fromLeft).1 donor receiver
      ((ofNode (s.read donor)).redistribute (ofNode (s.read receiver)) fromLeft).1.inUse
      ((ofNode (s.read donor)).redistribute (ofNode (s.read receiver)) fromLeft).2.inUse := by
  have donorCount := ofNode_keysNum fits
  have receiverCount := ofNode_keysNum (Nat.lt_succ_of_lt room)
  have given := ofNode_inUse fits
  have taken := ofNode_inUse (Nat.lt_succ_of_lt room)
  have kept : ((ofNode (s.read donor)).redistribute (ofNode (s.read receiver)) fromLeft).1.inUse =
      _ := redistribute_donor (donorCount ▸ nonempty) fromLeft
  have grown := redistribute_receiver (donorCount ▸ nonempty) fromLeft (receiverCount ▸ room)
  rw [given] at kept
  rw [given, taken] at grown
  have read : (redistribute residentPager root s donor receiver fromLeft).1.read =
      ((s.store receiver { s.read receiver with
          keys :=
            if fromLeft then (s.read donor).keys.getLast?.toList ++ (s.read receiver).keys
            else (s.read receiver).keys ++ (s.read donor).keys.head?.toList }).store donor
        { s.read donor with
          keys :=
            if fromLeft then (s.read donor).keys.dropLast
            else (s.read donor).keys.tail }).read := by
    simp only [redistribute, residentPager_node, residentPager_setNode, residentPager_write,
      read_store, different, ↓reduceIte]
    split_ifs <;> rfl
  refine ⟨?_, ?_, fun other notDonor notReceiver => ?_⟩
  · rw [read, read_store, if_pos rfl, kept]
  · rw [read, read_store, if_neg different.symm, read_store, if_pos rfl, grown]
  · rw [read, read_store, if_neg notDonor, read_store, if_neg notReceiver]

theorem redistribute_keeps_pair (fromLeft : Bool) (different : donor ≠ receiver)
    (nonempty : 0 < (s.read donor).keysNum) (fits : (s.read donor).keysNum < 256)
    (room : (s.read receiver).keysNum < 255) :
    sideBySide fromLeft
        ((redistribute residentPager root s donor receiver fromLeft).1.read donor).keys
        ((redistribute residentPager root s donor receiver fromLeft).1.read receiver).keys =
      sideBySide fromLeft (s.read donor).keys (s.read receiver).keys := by
  have stored := @redistribute_stores s root donor receiver fromLeft different nonempty fits room
  have donorCount := ofNode_keysNum fits
  have receiverCount := ofNode_keysNum (Nat.lt_succ_of_lt room)
  rw [stored.first, stored.second, ← ofNode_inUse fits, ← ofNode_inUse (Nat.lt_succ_of_lt room)]
  exact redistribute_keys (donorCount ▸ nonempty) (receiverCount ▸ room) fromLeft

theorem merge_stores (different : left ≠ right)
    (room : (s.read left).keysNum + (s.read right).keysNum < 256) :
    PairStored s (merge residentPager root s left right).1 left right
      ((ofNode (s.read left)).merge (ofNode (s.read right))).1.inUse (s.read right).keys ∧
    ((merge residentPager root s left right).1.read left).nextLeaf =
      ((ofNode (s.read left)).merge (ofNode (s.read right))).1.nextLeaf := by
  have whole := merge_ofNode room
  have read : (merge residentPager root s left right).1.read =
      (s.store left { s.read left with
        keys := (s.read left).keys ++ (s.read right).keys
        nextLeaf := (s.read right).nextLeaf }).read := by
    simp only [merge, residentPager_node, residentPager_setNode, residentPager_write]
    split_ifs <;> rfl
  refine ⟨⟨?_, ?_, fun other notLeft _ => ?_⟩, ?_⟩
  · rw [read, read_store, if_pos rfl, whole]
  · rw [read, read_store, if_neg different.symm]
  · rw [read, read_store, if_neg notLeft]
  · rw [read, read_store, if_pos rfl]
    rfl

theorem merge_keeps_pair (different : left ≠ right)
    (room : (s.read left).keysNum + (s.read right).keysNum < 256) :
    ((merge residentPager root s left right).1.read left).keys =
      (s.read left).keys ++ (s.read right).keys := by
  have stored := (@merge_stores s root left right different room).1
  rw [stored.first, merge_ofNode room]

end Calls

def rowKeys (s : Resident) (row : List Rrn) : List Key := row.flatMap fun rrn => (s.read rrn).keys

/-- The row has these keys, or the row without a node that is free now has them. -/
inductive RowKept (keys : List Key) (row : List Rrn) (after : Resident) : Prop
  | moved (same : rowKeys after row = keys)
  | freed {front back : List Rrn} {rrn : Rrn} (split : row = front ++ rrn :: back)
      (listed : rrn ∈ after.freeRrn) (same : rowKeys after (front ++ back) = keys)

section Rows

variable {s changed : Resident} {root left right : Rrn} {row front back : List Rrn}

theorem rowKeys_append (s : Resident) (front back : List Rrn) :
    rowKeys s (front ++ back) = rowKeys s front ++ rowKeys s back :=
  List.flatMap_append

theorem rowKeys_cons (s : Resident) (rrn : Rrn) (row : List Rrn) :
    rowKeys s (rrn :: row) = (s.read rrn).keys ++ rowKeys s row :=
  List.flatMap_cons

theorem rowKeys_frame (same : ∀ rrn ∈ row, changed.read rrn = s.read rrn) :
    rowKeys changed row = rowKeys s row := by
  induction row with
  | nil => rfl
  | cons rrn row ih =>
      have first := same rrn (by simp)
      rw [rowKeys_cons, rowKeys_cons, first, ih fun other member => same other (by simp [member])]

variable (distinct : (front ++ left :: right :: back).Nodup)
include distinct

theorem pair_ne : left ≠ right := by
  rw [List.nodup_append, List.nodup_cons, List.mem_cons, not_or] at distinct
  exact distinct.2.1.1.1

theorem outside_pair (others : ∀ rrn, rrn ≠ left → rrn ≠ right → changed.read rrn = s.read rrn) :
    rowKeys changed front = rowKeys s front ∧ rowKeys changed back = rowKeys s back := by
  rw [List.nodup_append, List.nodup_cons, List.nodup_cons] at distinct
  obtain ⟨_, ⟨notLeft, notRight, _⟩, apart⟩ := distinct
  constructor
  · apply rowKeys_frame
    intro rrn member
    exact others rrn (apart rrn member left (by simp)) (apart rrn member right (by simp))
  · apply rowKeys_frame
    intro rrn member
    apply others rrn
    · rintro rfl
      exact notLeft (by simp [member])
    · rintro rfl
      exact notRight member

theorem rowKept_moved (others : ∀ rrn, rrn ≠ left → rrn ≠ right → changed.read rrn = s.read rrn)
    (pair : (changed.read left).keys ++ (changed.read right).keys =
      (s.read left).keys ++ (s.read right).keys) :
    RowKept (rowKeys s (front ++ left :: right :: back)) (front ++ left :: right :: back)
      changed := by
  obtain ⟨low, high⟩ := outside_pair distinct others
  apply RowKept.moved
  rw [rowKeys_append, rowKeys_append, rowKeys_cons, rowKeys_cons, rowKeys_cons, rowKeys_cons, low,
    high, ← List.append_assoc (s.read left).keys, ← pair, List.append_assoc]

theorem rowKept_freed (others : ∀ rrn, rrn ≠ left → rrn ≠ right → changed.read rrn = s.read rrn)
    (listed : right ∈ changed.freeRrn)
    (whole : (changed.read left).keys = (s.read left).keys ++ (s.read right).keys) :
    RowKept (rowKeys s (front ++ left :: right :: back)) (front ++ left :: right :: back)
      changed := by
  obtain ⟨low, high⟩ := outside_pair distinct others
  have split : front ++ left :: right :: back = (front ++ [left]) ++ right :: back := by simp
  apply RowKept.freed split listed
  rw [split, rowKeys_append, rowKeys_append, rowKeys_append, rowKeys_append, rowKeys_cons,
    rowKeys_cons, rowKeys_cons, low, high, whole]
  simp [rowKeys]

variable {order : Nat} (limit : order ≤ 256)
include limit

theorem redistribute_row_fromLeft (nonempty : 0 < (s.read left).keysNum)
    (fits : (s.read left).keysNum ≤ order - 1) (room : (s.read right).keysNum < order - 1) :
    RowKept (rowKeys s (front ++ left :: right :: back)) (front ++ left :: right :: back)
      (redistribute residentPager root s left right true).1 := by
  have different := pair_ne distinct
  have stored := @redistribute_stores s root left right true different nonempty (by omega)
    (by omega)
  have keys := @redistribute_keeps_pair s root left right true different nonempty (by omega)
    (by omega)
  exact rowKept_moved distinct stored.others keys

theorem redistribute_row_fromRight (nonempty : 0 < (s.read right).keysNum)
    (fits : (s.read right).keysNum ≤ order - 1) (room : (s.read left).keysNum < order - 1) :
    RowKept (rowKeys s (front ++ left :: right :: back)) (front ++ left :: right :: back)
      (redistribute residentPager root s right left false).1 := by
  have different := (pair_ne distinct).symm
  have stored := @redistribute_stores s root right left false different nonempty (by omega)
    (by omega)
  have keys := @redistribute_keeps_pair s root right left false different nonempty (by omega)
    (by omega)
  exact rowKept_moved distinct (fun rrn notLeft notRight => stored.others rrn notRight notLeft) keys

theorem merge_row (works : ∀ n, s.ioFails n = false) (leftLeaf : HasLeaf s left)
    (rightLeaf : HasLeaf s right)
    (few : (s.read left).keysNum + (s.read right).keysNum ≤ order - 1) :
    RowKept (rowKeys s (front ++ left :: right :: back)) (front ++ left :: right :: back)
      (merge residentPager root s left right).1 := by
  have different := pair_ne distinct
  have stored := (@merge_stores s root left right different (by omega)).1
  have whole := @merge_keeps_pair s root left right different (by omega)
  obtain ⟨changed, result, _, listed⟩ := @merge_spec s root left right works different.symm
    rightLeaf leftLeaf
  rw [result] at whole stored ⊢
  exact rowKept_freed distinct stored.others listed whole

end Rows

/-- Whichever call the underflow branch makes, the row of the leaf and its siblings keeps its
keys. -/
theorem rebalance_keeps_row {s : Resident} {root p : Rrn} {order : Nat} {before after : List Rrn}
    (limit : order ≤ 256) (works : ∀ n, s.ioFails n = false)
    (onLeft : getSibling residentPager root s p true = (s, before.getLast?))
    (onRight : getSibling residentPager root s p false = (s, after.head?))
    (distinct : (before ++ p :: after).Nodup)
    (leaf : ∀ rrn ∈ before ++ p :: after, HasLeaf s rrn ∧ (s.read rrn).keysNum ≤ order - 1)
    (short : (s.read p).keysNum < (order - 1) / 2) :
    RowKept (rowKeys s (before ++ p :: after)) (before ++ p :: after)
      (rebalance residentPager order root s p).1 := by
  have call := @rebalance_call s root p order _ _ onLeft onRight
  generalize rebalance residentPager order root s p = result at call
  have own := leaf p (by simp)
  cases call with
  | alone => exact .moved rfl
  | @fromLeft donor next enough =>
      obtain ⟨front, rfl⟩ := List.getLast?_eq_some_iff.mp next
      have other := leaf donor (by simp)
      rw [List.append_assoc, List.singleton_append] at distinct ⊢
      exact redistribute_row_fromLeft distinct limit (by omega) other.2 (by omega)
  | @fromRight donor next enough =>
      obtain ⟨back, rfl⟩ := List.head?_eq_some_iff.mp next
      have other := leaf donor (by simp)
      exact redistribute_row_fromRight distinct limit (by omega) other.2 (by omega)
  | @intoLeft other next few fewRight =>
      obtain ⟨front, rfl⟩ := List.getLast?_eq_some_iff.mp next
      have sibling := leaf other (by simp)
      rw [List.append_assoc, List.singleton_append] at distinct ⊢
      exact merge_row distinct limit works sibling.1 own.1 (by omega)
  | @withRight other noLeft next few =>
      obtain ⟨back, rfl⟩ := List.head?_eq_some_iff.mp next
      have sibling := leaf other (by simp)
      exact merge_row distinct limit works own.1 sibling.1 (by omega)

section Removal

variable {b : BTree Resident Rrn} {height : Nat} {tree : Tree Rrn Key (height + 1)}
  {id : CString} {p : Rrn} {s : Resident}

theorem rebalance_keeps_siblings (limit : b.config.order ≤ 256)
    (valid : ValidBTree b (height + 1) tree)
    (represents : Represents s.nodes (height + 1) (mapLeaves (without id) (height + 1) tree))
    (works : ∀ n, s.ioFails n = false)
    (reached : (descend Key.id id (height + 1) tree).label = p)
    (short : (s.read p).keysNum < (b.config.order - 1) / 2) :
    ∃ front back,
      front.length + back.length = siblings Key.id id (height + 1) tree ∧
      (∀ rrn ∈ front ++ p :: back, ∃ leaf ∈ leaves (height + 1) tree,
        leaf.label = rrn ∧ (s.read rrn).keys = (without id leaf).records) ∧
      RowKept (rowKeys s (front ++ p :: back)) (front ++ p :: back)
        (rebalance residentPager b.config.order (label (height + 1) tree) s p).1 := by
  obtain ⟨name, front, back, found, beside, names, _, leaf⟩ :=
    leaf_siblings valid.toOrderedBTree represents reached
  have top : label (height + 1) (mapLeaves (without id) (height + 1) tree) =
      label (height + 1) tree := label_mapLeaves (fun _ => rfl) tree
  have other : p ≠ label (height + 1) tree := by
    rw [← reached]
    intro same
    have level := valid.flat (descend_mem Key.id id (height + 1) tree) same
    exact absurd level (Nat.succ_ne_zero height)
  have outside : p ∉ front := by
    rw [List.nodup_middle, List.nodup_cons, List.mem_append, not_or] at names
    exact names.1.1
  have stored : ∀ rrn ∈ front ++ p :: back, ∃ leaf ∈ leaves (height + 1) tree,
      leaf.label = rrn ∧ (s.read rrn).keys = (without id leaf).records := by
    intro rrn member
    obtain ⟨held, listed, rfl⟩ := (leaf rrn member).1
    have content := (represents.leaves held listed).leaf
    rw [leaves_mapLeaves] at listed
    obtain ⟨kept, keptMember, rfl⟩ := List.mem_map.mp listed
    exact ⟨kept, keptMember, rfl, by rw [content]; rfl⟩
  obtain ⟨onLeft, onRight⟩ := getSibling_spec represents top other (leaf p (by simp)).2.1.rrn
    (height_lt_depthLimit valid.distinct.1) found outside
  refine ⟨front, back, beside, stored, ?_⟩
  apply rebalance_keeps_row limit works onLeft onRight names ?_ short
  intro rrn member
  obtain ⟨held, listed, _, keys⟩ := stored rrn member
  have few := valid.filled.leaf_le held listed
  have fewer := List.length_filter_le (fun key => decide (key.id ≠ id)) held.records
  refine ⟨(leaf rrn member).2.1, ?_⟩
  rw [BtreeNode.keysNum, keys]
  exact fewer.trans few

/-- A removal that ends in the underflow branch takes one key out of the row of its leaf. -/
theorem removal_keeps_row (limit : b.config.order ≤ 256) (valid : ValidBTree b (height + 1) tree)
    (works : ∀ n, b.io.ioFails n = false)
    (listed : ∃ key ∈ records (height + 1) tree, key.id = id)
    (passes : ¬MeetsSeparator Key.id id (height + 1) tree)
    (reached : (descend Key.id id (height + 1) tree).label = p)
    (short : (descend Key.id id (height + 1) tree).records.length ≤ (b.config.order - 1) / 2) :
    ∃ front back,
      front.length + back.length = siblings Key.id id (height + 1) tree ∧
      RowKept ((rowKeys b.io (front ++ p :: back)).filter fun key => key.id ≠ id)
        (front ++ p :: back) (bRemove residentPager b id).1.io := by
  obtain ⟨before, key, rest, split, rfl, searched⟩ := valid.search_stored passes listed
  have leafMember := descend_mem Key.id key.id (height + 1) tree
  have read := (valid.represents.leaves _ leafMember).leaf
  have represents := @erase_represents (height + 1) tree b.io before rest key key.dataRegisterRrn
    valid.represents valid.search split
  have erasedRead := @erase_read b.io p key.dataRegisterRrn (before ++ rest)
  have fails : ∀ n, (erase b.io p (before ++ rest) key.dataRegisterRrn).ioFails n = false := by
    rw [erase_ioFails]
    exact works
  have found := bRemove_found valid.root works searched
    (leaf_position valid.filled (by omega) leafMember split) (by rw [read, leafNode, split])
    (by rw [read, leafNode])
  have other : p ≠ label (height + 1) tree := by
    rw [← reached]
    intro top
    exact absurd (valid.flat leafMember top) (Nat.succ_ne_zero height)
  rw [split, List.length_append, List.length_cons] at short
  have underflow : (before ++ rest).length < (b.config.order - 1) / 2 := by
    rw [List.length_append]
    omega
  rw [reached] at represents found
  rw [found]
  dsimp only
  rw [if_neg fun emptied => other emptied.1, if_pos ⟨other, underflow⟩]
  generalize erase b.io p (before ++ rest) key.dataRegisterRrn = erased at *
  obtain ⟨front, back, count, leaf, kept⟩ := @rebalance_keeps_siblings b height tree key.id p
    erased.wrote limit valid represents fails reached (by
      rw [read_wrote, erasedRead]
      exact underflow)
  refine ⟨front, back, count, ?_⟩
  have keys : rowKeys erased.wrote (front ++ p :: back) =
      (rowKeys b.io (front ++ p :: back)).filter fun other => other.id ≠ key.id := by
    rw [rowKeys, rowKeys, List.filter_flatMap]
    apply List.flatMap_congr
    intro rrn member
    obtain ⟨held, heldMember, rfl, content⟩ := leaf rrn member
    rw [content, (valid.represents.leaves held heldMember).leaf]
    rfl
  rwa [keys] at kept

end Removal

end Gaveta
