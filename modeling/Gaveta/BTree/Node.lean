import Gaveta.CString
import Mathlib.Tactic.Common

/-! Keys and nodes of `BTree.h`, and the operations of `BTree.c` inside one node. -/

namespace Gaveta

abbrev Rrn := UInt16

/-- `(u16)-1`, the mark of a missing node. -/
def noRrn : Rrn := 0xFFFF

structure Key where
  id : CString
  dataRegisterRrn : Rrn
deriving DecidableEq

/-- `keys` and `children` list the slots in use: their lengths are `keys_num` and `child_num`. -/
structure BtreeNode where
  keys : List Key
  rrn : Rrn
  children : List Rrn
  nextLeaf : Rrn
  leaf : Bool
deriving DecidableEq

def BtreeNode.keysNum (node : BtreeNode) : Nat := node.keys.length

def BtreeNode.childNum (node : BtreeNode) : Nat := node.children.length

/-- A slot of `children`; `alloc_btree_node` fills the unused ones with `(u16)-1`. -/
def BtreeNode.child (node : BtreeNode) (slot : Nat) : Rrn := node.children.getD slot noRrn

inductive BtreeStatus where
  | insertedInBtreeNode
  | notFoundKey
  | foundKey
  | success
  | errorMemory
  | errorIo
  | errorDuplicate
  | errorInvalidBtreeNode
deriving DecidableEq

def BtreeStatus.value : BtreeStatus → Int
  | insertedInBtreeNode => 5
  | notFoundKey => 3
  | foundKey => 2
  | success => 0
  | errorMemory => -1
  | errorIo => -2
  | errorDuplicate => -3
  | errorInvalidBtreeNode => -4

/-- The loop of `search_in_btree_node` from slot `i` on. -/
def searchFrom (id : CString) : List Key → Nat → BtreeStatus × Nat
  | [], i => (.notFoundKey, i)
  | key :: rest, i =>
      if key.id.isEmpty then (.notFoundKey, i)
      else if strcmp key.id id = 0 then (.foundKey, i)
      else if strcmp key.id id > 0 then (.notFoundKey, i)
      else searchFrom id rest (i + 1)

def searchInBtreeNode (p : BtreeNode) (id : CString) : BtreeStatus × Nat :=
  searchFrom id p.keys 0

/-- Shifts the slots from `pos` on up by one and stores `value` at `pos`. -/
def openSlot {α : Type} (slots : List α) (pos : Nat) (value : α) : List α :=
  slots.take pos ++ value :: slots.drop pos

def insertInBtreeNode (p : BtreeNode) (k : Key) (rChild : Option Rrn) (pos : Nat) : BtreeNode :=
  { p with
    keys := openSlot p.keys pos k
    children :=
      match p.leaf, rChild with
      | false, some rrn => openSlot p.children (pos + 1) rrn
      | _, _ => p.children }

/-- The shifting loop of `split` from slot `pos - 1` down: the slot left for the incoming key. -/
def splitPosition (keys : List Key) (id : CString) : Nat → Nat
  | 0 => 0
  | pos + 1 =>
      match keys[pos]? with
      | some key => if strcmp key.id id > 0 then splitPosition keys id pos else pos + 1
      | none => pos + 1

structure Halves where
  left : BtreeNode
  promoKey : Key
  right : BtreeNode

/-- The body of `split` between the allocation of the new node and the two writes. -/
def splitNode (order : Nat) (p : BtreeNode) (incomingKey : Key) (rChild : Option Rrn)
    (newRrn : Rrn) : Halves :=
  let pos := splitPosition p.keys incomingKey.id p.keysNum
  let tempKeys := openSlot p.keys pos incomingKey
  let half := (order - 1) / 2
  if p.leaf then
    let upper := (tempKeys.drop (half + 1)).take (order - (half + 1))
    { left := { p with keys := tempKeys.take (half + 1), nextLeaf := newRrn }
      promoKey := upper.headD incomingKey
      right :=
        { keys := upper, rrn := newRrn, children := [], nextLeaf := p.nextLeaf, leaf := true } }
  else
    -- without an incoming child the shifted slot keeps its old value
    let tempChildren := openSlot p.children (pos + 1) (rChild.getD (p.child (pos + 1)))
    { left := { p with keys := tempKeys.take half, children := tempChildren.take (half + 1) }
      promoKey := tempKeys.getD half incomingKey
      right :=
        { keys := (tempKeys.drop (half + 1)).take (order - half - 1)
          rrn := newRrn
          children := (tempChildren.drop (half + 1)).take (order - half)
          nextLeaf := noRrn
          leaf := false } }

@[simp] theorem openSlot_append {α : Type} (before after : List α) (value : α) :
    openSlot (before ++ after) before.length value = before ++ value :: after := by
  simp [openSlot]

theorem openSlot_of_length {α : Type} {before after : List α} {pos : Nat} (value : α)
    (length : before.length = pos) :
    openSlot (before ++ after) pos value = before ++ value :: after := by
  rw [← length, openSlot_append]

theorem mem_openSlot {α : Type} {slots : List α} {pos : Nat} {value member : α} :
    member ∈ openSlot slots pos value ↔ member = value ∨ member ∈ slots := by
  conv_rhs => rw [← List.take_append_drop pos slots]
  simp only [openSlot, List.mem_append, List.mem_cons]
  tauto

theorem searchFrom_spec (id : CString) (keys : List Key) (start : Nat)
    (marked : ∀ key ∈ keys, key.id.isEmpty = false) :
    ∃ before after, keys = before ++ after ∧ (∀ key ∈ before, key.id < id) ∧
      ((∃ key rest, after = key :: rest ∧ key.id = id ∧
          searchFrom id keys start = (.foundKey, start + before.length)) ∨
        ((∀ key ∈ after.head?, id < key.id) ∧
          searchFrom id keys start = (.notFoundKey, start + before.length))) := by
  induction keys generalizing start with
  | nil => exact ⟨[], [], rfl, by simp, Or.inr ⟨by simp, rfl⟩⟩
  | cons key rest ih =>
      have notEmpty := marked key (by simp)
      rcases lt_trichotomy key.id id with below | same | above
      · obtain ⟨before, after, rfl, lower, found⟩ :=
          ih (start + 1) fun other member => marked other (by simp [member])
        have next : searchFrom id (key :: (before ++ after)) start =
            searchFrom id (before ++ after) (start + 1) := by
          have notZero : strcmp key.id id ≠ 0 := fun zero =>
            (ne_of_lt below) ((strcmp_eq_zero_iff _ _).mp zero)
          have notPositive : ¬strcmp key.id id > 0 := fun positive =>
            lt_asymm below ((strcmp_pos_iff _ _).mp positive)
          simp only [searchFrom, notEmpty, notZero, notPositive, Bool.false_eq_true, ↓reduceIte]
        refine ⟨key :: before, after, rfl, ?_, ?_⟩
        · intro other member
          rcases List.mem_cons.mp member with rfl | member
          · exact below
          · exact lower other member
        · rw [next, List.length_cons, Nat.add_comm before.length 1, ← Nat.add_assoc]
          exact found
      · refine ⟨[], key :: rest, rfl, by simp, Or.inl ⟨key, rest, rfl, same, ?_⟩⟩
        have zero : strcmp key.id id = 0 := (strcmp_eq_zero_iff _ _).mpr same
        simp [searchFrom, notEmpty, zero]
      · refine ⟨[], key :: rest, rfl, by simp, Or.inr ⟨by simpa using above, ?_⟩⟩
        have notZero : strcmp key.id id ≠ 0 := fun zero =>
          (ne_of_gt above) ((strcmp_eq_zero_iff _ _).mp zero)
        have positive : strcmp key.id id > 0 := (strcmp_pos_iff _ _).mpr above
        simp only [searchFrom, notEmpty, notZero, positive, Bool.false_eq_true, ↓reduceIte]
        simp

theorem pairwise_head_lt {id : CString} {keys : List Key}
    (sorted : keys.Pairwise fun left right => left.id ≤ right.id)
    (head : ∀ key ∈ keys.head?, id < key.id) : ∀ key ∈ keys, id < key.id := by
  cases keys with
  | nil => simp
  | cons first rest =>
      have start := head first (by simp)
      intro key member
      rcases List.mem_cons.mp member with rfl | member
      · exact start
      · exact lt_of_lt_of_le start ((List.pairwise_cons.mp sorted).1 key member)

theorem splitPosition_eq {id : CString} {before after : List Key}
    (lower : ∀ key ∈ before, key.id < id) (upper : ∀ key ∈ after, id < key.id) :
    splitPosition (before ++ after) id (before ++ after).length = before.length := by
  have start : splitPosition (before ++ after) id before.length = before.length := by
    rcases List.eq_nil_or_concat before with rfl | ⟨front, last, rfl⟩
    · rfl
    · have notPositive : ¬strcmp last.id id > 0 := fun positive =>
        lt_asymm (lower last (by simp)) ((strcmp_pos_iff _ _).mp positive)
      simp [splitPosition, notPositive]
  have above : ∀ count ≤ after.length,
      splitPosition (before ++ after) id (before.length + count) = before.length := by
    intro count bound
    induction count with
    | zero => exact start
    | succ count ih =>
        have slot : (before ++ after)[before.length + count]? = some after[count] := by
          rw [List.getElem?_append_right (by omega)]
          simp
        have positive : strcmp after[count].id id > 0 :=
          (strcmp_pos_iff _ _).mpr (upper _ (List.getElem_mem _))
        rw [← Nat.add_assoc, splitPosition, slot]
        simp only [positive, ↓reduceIte]
        exact ih (by omega)
  have whole := above after.length le_rfl
  rwa [← List.length_append] at whole

theorem splitNode_right_rrn (order : Nat) (p : BtreeNode) (incomingKey : Key)
    (rChild : Option Rrn) (newRrn : Rrn) :
    (splitNode order p incomingKey rChild newRrn).right.rrn = newRrn := by
  rw [splitNode]
  split <;> rfl

section Split

variable {order : Nat} {p : BtreeNode} {k : Key} {newRrn : Rrn}
  {before after left right : List Key} {middle : Key}

theorem splitNode_leaf (leaf : p.leaf = true) (keys : p.keys = before ++ after)
    (lower : ∀ key ∈ before, key.id < k.id) (upper : ∀ key ∈ after, k.id < key.id)
    (count : (before ++ k :: after).length = order)
    (cut : before ++ k :: after = left ++ middle :: right)
    (half : left.length = (order - 1) / 2 + 1) :
    splitNode order p k none newRrn =
      { left := { p with keys := left, nextLeaf := newRrn }
        promoKey := middle
        right :=
          { keys := middle :: right, rrn := newRrn, children := [], nextLeaf := p.nextLeaf,
            leaf := true } } := by
  have position : splitPosition (before ++ after) k.id p.keysNum = before.length := by
    rw [BtreeNode.keysNum, keys]
    exact splitPosition_eq lower upper
  have room : order - left.length = (middle :: right).length := by
    rw [cut, List.length_append] at count
    omega
  simp only [splitNode, keys, position, leaf, ↓reduceIte, openSlot_append, cut, ← half,
    List.take_left, List.drop_left, room, List.take_length, List.headD_cons]

theorem splitNode_branch {rrn : Rrn}
    {childrenBefore childrenAfter lowChildren highChildren : List Rrn}
    (leaf : p.leaf = false) (keys : p.keys = before ++ after)
    (children : p.children = childrenBefore ++ childrenAfter)
    (align : childrenBefore.length = before.length + 1)
    (lower : ∀ key ∈ before, key.id < k.id) (upper : ∀ key ∈ after, k.id < key.id)
    (count : (before ++ k :: after).length = order)
    (cut : before ++ k :: after = left ++ middle :: right)
    (half : left.length = (order - 1) / 2)
    (childrenCut : childrenBefore ++ rrn :: childrenAfter = lowChildren ++ highChildren)
    (low : lowChildren.length = left.length + 1) (high : highChildren.length = right.length + 1) :
    splitNode order p k (some rrn) newRrn =
      { left := { p with keys := left, children := lowChildren }
        promoKey := middle
        right :=
          { keys := right, rrn := newRrn, children := highChildren, nextLeaf := noRrn,
            leaf := false } } := by
  have position : splitPosition (before ++ after) k.id p.keysNum = before.length := by
    rw [BtreeNode.keysNum, keys]
    exact splitPosition_eq lower upper
  have opened : openSlot p.children (before.length + 1) rrn = lowChildren ++ highChildren := by
    rw [children, openSlot_of_length rrn align, childrenCut]
  have counted : left.length + 1 + right.length = order := by
    rw [cut, List.length_append, List.length_cons] at count
    omega
  have upperKeys : (left ++ middle :: right).drop lowChildren.length = right := by
    rw [low, List.drop_append, List.drop_of_length_le (by omega)]
    simp
  have middleAt : (left ++ middle :: right).getD left.length k = middle := by simp
  have childCount : order - left.length = highChildren.length := by omega
  have upperCount : highChildren.length - 1 = right.length := by omega
  simp only [splitNode, keys, position, leaf, Bool.false_eq_true, ↓reduceIte, openSlot_append,
    Option.getD_some, opened, cut, ← half, List.take_left, middleAt, ← low, upperKeys,
    List.drop_left, childCount, upperCount, List.take_length]

end Split

end Gaveta
