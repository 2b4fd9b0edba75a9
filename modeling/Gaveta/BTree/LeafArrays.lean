import Gaveta.BTree.InsertRun
import Gaveta.BTree.SplitArrays
import Gaveta.Library.Shifting

/-! The array `keys` and the byte `keys_num` of a leaf in the operations that move its keys. -/

namespace Gaveta

open GapSort (contents)

structure LeafArrays where
  keys : Scratch Key
  keysNum : UInt8
  nextLeaf : Rrn

namespace LeafArrays

def inUse (leaf : LeafArrays) : List Key := contents leaf.keys.slots leaf.keysNum.toNat

/-- `insert_in_btree_node` on a leaf, which has no children to move. -/
def insertInBtreeNode (p : LeafArrays) (k : Key) (pos : Nat) : LeafArrays :=
  { p with
    keys := (p.keys.openGap pos (p.keysNum.toNat - pos)).set pos k
    keysNum := p.keysNum + 1 }

/-- The loop of `b_remove` that takes the key at `pos` out of a leaf. -/
def removeKey (p : LeafArrays) (pos : Nat) : LeafArrays :=
  { p with
    keys := p.keys.closeGap pos (p.keysNum.toNat - 1 - pos)
    keysNum := p.keysNum - 1 }

/-- `redistribute` up to the two writes: the donor and the receiver. -/
def redistribute (donor receiver : LeafArrays) (fromLeft : Bool) : LeafArrays × LeafArrays :=
  if fromLeft then
    let last := donor.keysNum.toNat - 1
    ({ donor with keys := donor.keys.look last, keysNum := donor.keysNum - 1 },
      { receiver with
        keys := (receiver.keys.openGap 0 receiver.keysNum.toNat).set 0 (donor.keys.slots last)
        keysNum := receiver.keysNum + 1 })
  else
    ({ donor with
        keys := (donor.keys.look 0).closeGap 0 (donor.keysNum.toNat - 1)
        keysNum := donor.keysNum - 1 },
      { receiver with
        keys := receiver.keys.set receiver.keysNum.toNat (donor.keys.slots 0)
        keysNum := receiver.keysNum + 1 })

/-- `merge` up to the write: both leaves. -/
def merge (left right : LeafArrays) : LeafArrays × LeafArrays :=
  let read := right.keys.copyOut 0 right.keysNum.toNat
  ({ keys := left.keys.copyIn left.keysNum.toNat read.2
     keysNum := left.keysNum + right.keysNum
     nextLeaf := right.nextLeaf },
    { right with keys := read.1 })

def ofNode (node : BtreeNode) : LeafArrays :=
  { keys := { slots := fun i => node.keys.getD i zeroKey, uses := [] }
    keysNum := UInt8.ofNat node.keysNum
    nextLeaf := node.nextLeaf }

/-- The leaf has at most `order - 1` keys and no other slot of it has been used. -/
structure Fits (order : Nat) (leaf : LeafArrays) : Prop where
  count : leaf.keysNum.toNat ≤ order - 1
  uses : leaf.keys.Within (order - 1)

/-- The test of `b_remove` on the leaf that has lost a key. -/
def Underflows (order : Nat) (leaf : LeafArrays) : Prop := leaf.keysNum.toNat < (order - 1) / 2

/-- The test of `b_remove` on a sibling that may give a key away. -/
def CanGive (order : Nat) (leaf : LeafArrays) : Prop := (order - 1) / 2 < leaf.keysNum.toNat

instance decidableUnderflows (order : Nat) (leaf : LeafArrays) :
    Decidable (leaf.Underflows order) :=
  inferInstanceAs (Decidable (_ < _))

instance decidableCanGive (order : Nat) (leaf : LeafArrays) : Decidable (leaf.CanGive order) :=
  inferInstanceAs (Decidable (_ < _))

def sideBySide (fromLeft : Bool) (donor receiver : List Key) : List Key :=
  if fromLeft then donor ++ receiver else receiver ++ donor

structure Redistributed (order : Nat) (left right : LeafArrays) (fromLeft : Bool)
    (moved : LeafArrays × LeafArrays) : Prop where
  keys : sideBySide fromLeft moved.1.inUse moved.2.inUse = left.inUse ++ right.inUse
  least : (order - 1) / 2 ≤ moved.1.keysNum.toNat
  donor : moved.1.Fits order
  receiver : moved.2.Fits order

structure Merged (order : Nat) (left right : LeafArrays) (merged : LeafArrays × LeafArrays) :
    Prop where
  keys : merged.1.inUse = left.inUse ++ right.inUse
  counter : merged.1.keysNum.toNat = left.keysNum.toNat + right.keysNum.toNat
  nextLeaf : merged.1.nextLeaf = right.nextLeaf
  left : merged.1.Fits order
  right : merged.2.Fits order

variable {leaf donor receiver left right : LeafArrays} {order pos : Nat} {k : Key}

theorem length_inUse : leaf.inUse.length = leaf.keysNum.toNat := Scratch.length_contents

theorem ofNode_keysNum {node : BtreeNode} (few : node.keysNum < 256) :
    (ofNode node).keysNum.toNat = node.keysNum :=
  UInt8.toNat_ofNat_of_lt' few

theorem ofNode_inUse {node : BtreeNode} (few : node.keysNum < 256) :
    (ofNode node).inUse = node.keys := by
  rw [inUse, ofNode_keysNum few]
  apply List.ext_getElem?
  intro index
  rw [Scratch.getElem?_contents]
  by_cases inside : index < node.keysNum
  · rw [if_pos inside, List.getElem?_eq_getElem inside]
    have slot : node.keys.getD index zeroKey = node.keys[index] := by
      rw [List.getD_eq_getElem?_getD, List.getElem?_eq_getElem inside, Option.getD_some]
    exact congrArg Option.some slot
  · rw [if_neg inside, List.getElem?_eq_none (Nat.le_of_not_lt inside)]

theorem ofNode_fits {node : BtreeNode} (few : node.keysNum ≤ order - 1) (limit : order ≤ 256) :
    (ofNode node).Fits order := by
  refine ⟨?_, fun i used => by cases used⟩
  rw [ofNode_keysNum (by omega)]
  exact few

theorem toNat_add_one {count : UInt8} (room : count.toNat < 255) :
    (count + 1).toNat = count.toNat + 1 := by
  rw [UInt8.toNat_add, UInt8.toNat_one]
  omega

theorem toNat_sub_one {count : UInt8} (some : 0 < count.toNat) :
    (count - 1).toNat = count.toNat - 1 := by
  rw [UInt8.toNat_sub_of_le, UInt8.toNat_one]
  exact UInt8.le_iff_toNat_le.mpr some

theorem openSlot_eq_insertIdx {α : Type} {slots : List α} {value : α}
    (inside : pos ≤ slots.length) : slots.insertIdx pos value = openSlot slots pos value := by
  induction pos generalizing slots with
  | zero => rfl
  | succ pos ih =>
      cases slots with
      | nil => cases inside
      | cons first rest =>
          rw [List.insertIdx_succ_cons, ih (Nat.le_of_succ_le_succ inside)]
          rfl

theorem insertInBtreeNode_inUse (inside : pos ≤ leaf.keysNum.toNat)
    (room : leaf.keysNum.toNat < 255) :
    (leaf.insertInBtreeNode k pos).inUse = openSlot leaf.inUse pos k := by
  have bound : pos ≤ leaf.inUse.length := by rwa [length_inUse]
  rw [← openSlot_eq_insertIdx bound, inUse, insertInBtreeNode]
  dsimp only
  rw [toNat_add_one room]
  exact Scratch.contents_openGap inside k

theorem insertInBtreeNode_fits (inside : pos ≤ leaf.keysNum.toNat) (limit : order ≤ 256)
    (fits : leaf.Fits order) (room : leaf.keysNum.toNat < order - 1) :
    (leaf.insertInBtreeNode k pos).Fits order := by
  have more : (leaf.keysNum + 1).toNat = leaf.keysNum.toNat + 1 := toNat_add_one (by omega)
  refine ⟨?_, ?_⟩
  · rw [insertInBtreeNode]
    dsimp only
    omega
  · rw [insertInBtreeNode, Scratch.set_within, Scratch.openGap_within]
    exact ⟨by omega, by omega, fits.uses⟩

theorem removeKey_inUse (inside : pos < leaf.keysNum.toNat) :
    (leaf.removeKey pos).inUse = leaf.inUse.eraseIdx pos := by
  rw [inUse, removeKey]
  dsimp only
  rw [toNat_sub_one (Nat.zero_lt_of_lt inside)]
  exact Scratch.contents_closeGap inside

theorem insertInBtreeNode_keys {node : BtreeNode} (room : node.keysNum < 255)
    (inside : pos ≤ node.keysNum) :
    ((ofNode node).insertInBtreeNode k pos).inUse =
      (Gaveta.insertInBtreeNode node k none pos).keys := by
  have few : node.keysNum < 256 := Nat.lt_succ_of_lt room
  have count := ofNode_keysNum few
  rw [insertInBtreeNode_inUse (by omega) (by omega), ofNode_inUse few]
  rfl

theorem removeKey_keys {node : BtreeNode} (few : node.keysNum < 256) (inside : pos < node.keysNum) :
    ((ofNode node).removeKey pos).inUse = node.keys.eraseIdx pos := by
  have count := ofNode_keysNum few
  rw [removeKey_inUse (by omega), ofNode_inUse few]

section Redistribute

variable (nonempty : 0 < donor.keysNum.toNat)
include nonempty

theorem redistribute_donor (fromLeft : Bool) :
    (donor.redistribute receiver fromLeft).1.inUse =
      if fromLeft then donor.inUse.dropLast else donor.inUse.tail := by
  have fewer := toNat_sub_one nonempty
  cases fromLeft with
  | true =>
      have whole : donor.inUse = _ := Scratch.contents_last nonempty
      rw [if_pos rfl, whole, List.dropLast_concat, ← fewer]
      rfl
  | false =>
      have closed := Scratch.contents_closeGap (a := donor.keys.look 0) nonempty
      rw [Nat.sub_zero, List.eraseIdx_zero] at closed
      rw [if_neg Bool.false_ne_true, inUse, redistribute, if_neg Bool.false_ne_true]
      dsimp only
      rw [fewer]
      exact closed

theorem redistribute_receiver (fromLeft : Bool) (room : receiver.keysNum.toNat < 255) :
    (donor.redistribute receiver fromLeft).2.inUse =
      if fromLeft then donor.inUse.getLast?.toList ++ receiver.inUse
      else receiver.inUse ++ donor.inUse.head?.toList := by
  have more := toNat_add_one room
  cases fromLeft with
  | true =>
      have whole : donor.inUse = _ := Scratch.contents_last nonempty
      have opened := Scratch.contents_openGap (a := receiver.keys)
        (Nat.zero_le receiver.keysNum.toNat) (donor.keys.slots (donor.keysNum.toNat - 1))
      rw [Nat.sub_zero, List.insertIdx_zero, ← more] at opened
      rw [if_pos rfl, whole, List.getLast?_concat]
      exact opened
  | false =>
      have first : donor.inUse.head? = _ := Scratch.contents_head? nonempty
      have placed := Scratch.contents_copyIn (a := receiver.keys) (n := receiver.keysNum.toNat)
        [donor.keys.slots 0]
      rw [List.length_singleton, ← more] at placed
      rw [if_neg Bool.false_ne_true, first]
      exact placed

theorem redistribute_fits (fromLeft : Bool) (gives : donor.Fits order) (takes : receiver.Fits order)
    (room : receiver.keysNum.toNat < order - 1) (limit : order ≤ 256) :
    (donor.redistribute receiver fromLeft).1.Fits order ∧
      (donor.redistribute receiver fromLeft).2.Fits order := by
  have count := gives.count
  have fewer := toNat_sub_one nonempty
  have more : (receiver.keysNum + 1).toNat = receiver.keysNum.toNat + 1 :=
    toNat_add_one (by omega)
  have donorUses := gives.uses
  have receiverUses := takes.uses
  cases fromLeft with
  | true =>
      rw [redistribute, if_pos rfl]
      refine ⟨⟨?_, ?_⟩, ⟨?_, ?_⟩⟩
      · dsimp only
        omega
      · exact Scratch.look_within.mpr ⟨by omega, donorUses⟩
      · dsimp only
        omega
      · rw [Scratch.set_within, Scratch.openGap_within]
        exact ⟨by omega, by omega, receiverUses⟩
  | false =>
      rw [redistribute, if_neg Bool.false_ne_true]
      refine ⟨⟨?_, ?_⟩, ⟨?_, ?_⟩⟩
      · dsimp only
        omega
      · rw [Scratch.closeGap_within, Scratch.look_within]
        exact ⟨by omega, by omega, donorUses⟩
      · dsimp only
        omega
      · exact Scratch.set_within.mpr ⟨room, receiverUses⟩

end Redistribute

theorem dropLast_append_getLast {α : Type} (values : List α) :
    values.dropLast ++ values.getLast?.toList = values := by
  rcases List.eq_nil_or_concat values with rfl | ⟨front, last, rfl⟩
  · rfl
  · rw [List.concat_eq_append, List.dropLast_concat, List.getLast?_concat, Option.toList_some]

theorem head_append_tail {α : Type} (values : List α) :
    values.head?.toList ++ values.tail = values := by
  cases values <;> rfl

theorem merge_counter (room : left.keysNum.toNat + right.keysNum.toNat < 256) :
    (left.merge right).1.keysNum.toNat = left.keysNum.toNat + right.keysNum.toNat := by
  rw [merge]
  dsimp only
  rw [UInt8.toNat_add, Nat.mod_eq_of_lt room]

theorem copyOut_inUse (leaf : LeafArrays) :
    (leaf.keys.copyOut 0 leaf.keysNum.toNat).2 = leaf.inUse := by
  rw [Scratch.copyOut, ← List.range_eq_range']
  rfl

theorem merge_inUse (room : left.keysNum.toNat + right.keysNum.toNat < 256) :
    (left.merge right).1.inUse = left.inUse ++ right.inUse := by
  have copied := Scratch.contents_copyIn (a := left.keys) (n := left.keysNum.toNat) right.inUse
  rw [length_inUse, ← merge_counter room] at copied
  rw [inUse, merge, copyOut_inUse]
  exact copied

theorem merge_ofNode {one two : BtreeNode} (room : one.keysNum + two.keysNum < 256) :
    ((ofNode one).merge (ofNode two)).1.inUse = one.keys ++ two.keys := by
  have oneFew : one.keysNum < 256 := by omega
  have twoFew : two.keysNum < 256 := by omega
  have oneCount := ofNode_keysNum oneFew
  have twoCount := ofNode_keysNum twoFew
  rw [merge_inUse (by omega), ofNode_inUse oneFew, ofNode_inUse twoFew]

theorem merge_fits (leftFits : left.Fits order) (rightFits : right.Fits order)
    (room : left.keysNum.toNat + right.keysNum.toNat ≤ order - 1) (limit : order ≤ 256) :
    (left.merge right).1.Fits order ∧ (left.merge right).2.Fits order := by
  have counter : (left.merge right).1.keysNum.toNat = left.keysNum.toNat + right.keysNum.toNat :=
    merge_counter (by omega)
  have rightCount := rightFits.count
  refine ⟨⟨?_, ?_⟩, ⟨rightCount, ?_⟩⟩
  · rw [counter]
    exact room
  · rw [merge, copyOut_inUse]
    refine (Scratch.copyIn_within _).mpr ⟨Or.inr ?_, leftFits.uses⟩
    rw [length_inUse]
    exact room
  · refine Scratch.copyOut_within.mpr ⟨Or.inr ?_, rightFits.uses⟩
    rw [Nat.zero_add]
    exact rightCount

theorem redistribute_keys (nonempty : 0 < donor.keysNum.toNat)
    (room : receiver.keysNum.toNat < 255) (fromLeft : Bool) :
    sideBySide fromLeft (donor.redistribute receiver fromLeft).1.inUse
        (donor.redistribute receiver fromLeft).2.inUse =
      sideBySide fromLeft donor.inUse receiver.inUse := by
  rw [redistribute_donor nonempty, redistribute_receiver nonempty fromLeft room]
  cases fromLeft with
  | true =>
      have whole := dropLast_append_getLast donor.inUse
      simp only [sideBySide, ↓reduceIte]
      rw [← List.append_assoc, whole]
  | false =>
      have whole := head_append_tail donor.inUse
      simp only [sideBySide, Bool.false_eq_true, ↓reduceIte]
      rw [List.append_assoc, whole]

theorem redistributed (fromLeft : Bool) (gives : donor.Fits order) (takes : receiver.Fits order)
    (limit : order ≤ 256) (spare : donor.CanGive order) (short : receiver.Underflows order) :
    Redistributed order (if fromLeft then donor else receiver) (if fromLeft then receiver else donor)
      fromLeft (donor.redistribute receiver fromLeft) := by
  have many : (order - 1) / 2 < donor.keysNum.toNat := spare
  have few : receiver.keysNum.toNat < (order - 1) / 2 := short
  have nonempty : 0 < donor.keysNum.toNat := Nat.zero_lt_of_lt many
  have fits := redistribute_fits nonempty fromLeft gives takes (by omega) limit
  have counter : (donor.redistribute receiver fromLeft).1.keysNum = donor.keysNum - 1 := by
    cases fromLeft <;> rfl
  refine ⟨?_, ?_, fits.1, fits.2⟩
  · rw [redistribute_keys nonempty (by omega)]
    cases fromLeft <;> rfl
  · rw [counter, toNat_sub_one nonempty]
    omega

theorem merged (leftFits : left.Fits order) (rightFits : right.Fits order) (limit : order ≤ 256)
    (few : left.keysNum.toNat + right.keysNum.toNat ≤ order - 1) :
    Merged order left right (left.merge right) := by
  have room : left.keysNum.toNat + right.keysNum.toNat < 256 := by omega
  have fits := merge_fits leftFits rightFits few limit
  exact ⟨merge_inUse room, merge_counter room, rfl, fits.1, fits.2⟩

/-- In the cases of `b_remove` the keys of two neighbours stay the same sequence. -/
theorem rebalancing_keeps_keys (limit : order ≤ 256) (leftFits : left.Fits order)
    (rightFits : right.Fits order) :
    (left.CanGive order → right.Underflows order →
      Redistributed order left right true (left.redistribute right true)) ∧
    (right.CanGive order → left.Underflows order →
      Redistributed order left right false (right.redistribute left false)) ∧
    (left.Underflows order ∧ ¬right.CanGive order ∨ right.Underflows order ∧ ¬left.CanGive order →
      Merged order left right (left.merge right)) := by
  refine ⟨?_, ?_, ?_⟩
  · intro spare short
    exact redistributed true leftFits rightFits limit spare short
  · intro spare short
    exact redistributed false rightFits leftFits limit spare short
  · intro guards
    apply merged leftFits rightFits limit
    simp only [Underflows, CanGive] at guards
    omega

end LeafArrays

open LeafArrays

def leafWith (ids : List CString) : BtreeNode :=
  { keys := ids.map fun id => { id := id, dataRegisterRrn := 0 }
    rrn := 0
    children := []
    nextLeaf := noRrn
    leaf := true }

def smallLeaf (ids : List (Fin 255)) : LeafArrays := ofNode (leafWith (ids.map singleId))

theorem rebalancing_keeps_keys_of_order_five :
    Redistributed 5 (smallLeaf [1, 2, 3]) (smallLeaf [4]) true
        ((smallLeaf [1, 2, 3]).redistribute (smallLeaf [4]) true) ∧
      Redistributed 5 (smallLeaf [1]) (smallLeaf [2, 3, 4]) false
        ((smallLeaf [2, 3, 4]).redistribute (smallLeaf [1]) false) ∧
      Merged 5 (smallLeaf [1, 2]) (smallLeaf [3]) ((smallLeaf [1, 2]).merge (smallLeaf [3])) := by
  have small : 5 ≤ 256 := by decide
  refine ⟨?_, ?_, ?_⟩
  · exact (rebalancing_keeps_keys small (ofNode_fits (by decide) small)
      (ofNode_fits (by decide) small)).1 (by decide) (by decide)
  · exact (rebalancing_keeps_keys small (ofNode_fits (by decide) small)
      (ofNode_fits (by decide) small)).2.1 (by decide) (by decide)
  · exact (rebalancing_keeps_keys small (ofNode_fits (by decide) small)
      (ofNode_fits (by decide) small)).2.2 (by decide)

end Gaveta
