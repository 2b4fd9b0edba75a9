import Gaveta.Structures.LinkedList

/-! `GenericDynamicArray.c`: arrays that grow, and the lists that they stand for. -/

namespace Gaveta

def sizeRange : Nat := 18446744073709551616

/-- A `DynamicArray` with the bytes from `data` on, of which the first `block` are its own. -/
structure DataArray where
  block : Nat
  bytes : Nat → UInt8
  size : UInt32
  capacity : UInt32
  elementSize : UInt32

/-- Where an operation copies an element from or to, and what it copies to the caller. -/
structure Transfer where
  offset : Option Nat
  out : Option (List UInt8)

def darrayCreate (m : Memory) (elementSize initialCapacity : UInt32) :
    Option (Memory × Option DataArray) :=
  if elementSize = 0 then some (m, none)
  else
    match gAllocate m dynamicArraySize with
    | none => none
    | some (m, none) => some (m, none)
    | some (m, some array) =>
        let capacity := if 0 < initialCapacity then initialCapacity else 8
        match gAllocate m (capacity * elementSize).toNat with
        | none => none
        | some (m, none) => some (gDeallocate m (some array), none)
        | some (m, some data) =>
            some (m, some
              { block := (capacity * elementSize).toNat
                bytes := fun i => m.pool (data + i)
                size := 0
                capacity := capacity
                elementSize := elementSize })

namespace DataArray

def width (array : DataArray) : Nat := array.elementSize.toNat

def load (array : DataArray) (offset : Nat) : List UInt8 :=
  copied array.width fun i => array.bytes (offset + i)

def store (array : DataArray) (offset : Nat) (element : Nat → UInt8) : DataArray :=
  { array with
    bytes := fun i =>
      if offset ≤ i ∧ i < offset + array.width then element (i - offset) else array.bytes i }

/-- `_darray_resize`; `realloc` keeps the bytes that fit and gives the others. -/
def darrayResize (array : DataArray) (realloc : Nat → Option (Nat → UInt8)) : Option DataArray :=
  let newCapacity := if array.capacity = 0 then 8 else array.capacity * 2
  let newBlock := newCapacity.toNat * array.width % sizeRange
  (realloc newBlock).map fun other =>
    { array with
      block := newBlock
      bytes := fun i => if i < min array.block newBlock then array.bytes i else other i
      capacity := newCapacity }

def append (array : DataArray) (element : Nat → UInt8) : DataArray :=
  { array.store (array.size * array.elementSize).toNat element with size := array.size + 1 }

def darrayPush (array : DataArray) (realloc : Nat → Option (Nat → UInt8)) (element : Nat → UInt8) :
    Option (DataArray × Transfer) :=
  let grown := if array.capacity ≤ array.size then array.darrayResize realloc else some array
  grown.map fun array =>
    (array.append element,
      { offset := some (array.size * array.elementSize).toNat, out := none })

def darrayPop (array : DataArray) (out : Bool) : Option (DataArray × Transfer) :=
  if array.size = 0 then none
  else
    let size := array.size - 1
    let src := (size * array.elementSize).toNat
    some ({ array with size := size },
      if out then { offset := some src, out := some (array.load src) }
      else { offset := none, out := none })

def darrayGet (array : DataArray) (index : Nat) : Option (DataArray × Transfer) :=
  if array.size.toNat ≤ index then none
  else
    let src := index * array.width % sizeRange
    some (array, { offset := some src, out := some (array.load src) })

def darraySet (array : DataArray) (index : Nat) (element : Nat → UInt8) :
    Option (DataArray × Transfer) :=
  if array.size.toNat ≤ index then none
  else
    let dest := index * array.width % sizeRange
    some (array.store dest element, { offset := some dest, out := none })

def darrayGetLast (array : DataArray) : Option (DataArray × Transfer) :=
  if array.size = 0 then none
  else
    let src := ((array.size - 1) * array.elementSize).toNat
    some (array, { offset := some src, out := some (array.load src) })

end DataArray

inductive ArrayOp where
  | push (realloc : Nat → Option (Nat → UInt8)) (element : Nat → UInt8)
  | pop (out : Bool)
  | get (index : Nat)
  | set (index : Nat) (element : Nat → UInt8)
  | getLast

namespace ArrayOp

def act (array : DataArray) : ArrayOp → Option (DataArray × Transfer)
  | push realloc element => array.darrayPush realloc element
  | pop out => array.darrayPop out
  | get index => array.darrayGet index
  | set index element => array.darraySet index element
  | getLast => array.darrayGetLast

/-- The same operation of a list, and what it delivers. -/
def onList (width : Nat) (list : List (List UInt8)) :
    ArrayOp → List (List UInt8) × Option (List UInt8)
  | push _ element => (list ++ [copied width element], none)
  | pop out => (list.dropLast, if out then list.getLast? else none)
  | get index => (list, list[index]?)
  | set index element => (list.set index (copied width element), none)
  | getLast => (list, list.getLast?)

end ArrayOp

/-- The offset of a new element and the capacity of a resize are computed without a wrap. -/
structure PushFits (array : DataArray) : Prop where
  doubles : array.capacity ≤ array.size → 2 * array.capacity.toNat < u32Range
  offset : array.size.toNat * array.width < u32Range

def ArrayOp.Fits (array : DataArray) : ArrayOp → Prop
  | push _ _ => PushFits array
  | _ => True

structure RefinesList (array : DataArray) (list : List (List UInt8)) : Prop where
  contents : ∀ index, (array.darrayGet index).bind (fun got => got.2.out) = list[index]?
  block : array.capacity.toNat * array.width ≤ array.block
  size : array.size ≤ array.capacity

structure StepRefines (array : DataArray) (list : List (List UInt8)) (op : ArrayOp)
    (after : DataArray) (transfer : Transfer) : Prop where
  refines : RefinesList after (op.onList array.width list).1
  out : transfer.out = (op.onList array.width list).2
  inside : ∀ offset, transfer.offset = some offset → offset + array.width ≤ after.block

def OpRefines (array : DataArray) (list : List (List UInt8)) (op : ArrayOp) : Prop :=
  ∀ after transfer, op.act array = some (after, transfer) →
    StepRefines array list op after transfer

/-- The arrays of the runs of operations that succeed without a wrap, and the lists of the same
operations. -/
inductive ArrayRun (elementSize initialCapacity : UInt32) :
    DataArray → List (List UInt8) → Prop
  | create {m after : Memory} {array : DataArray}
      (made : darrayCreate m elementSize initialCapacity = some (after, some array))
      (fits : array.capacity.toNat * array.width < u32Range) :
      ArrayRun elementSize initialCapacity array []
  | step {array after : DataArray} {list : List (List UInt8)} {op : ArrayOp} {transfer : Transfer}
      (before : ArrayRun elementSize initialCapacity array list) (fits : op.Fits array)
      (acts : op.act array = some (after, transfer)) :
      ArrayRun elementSize initialCapacity after (op.onList array.width list).1

namespace DataArray

variable {array after : DataArray} {list : List (List UInt8)} {index other : Nat}

theorem width_lt (array : DataArray) : array.width < u32Range := array.elementSize.toNat_lt

theorem size_lt (array : DataArray) : array.size.toNat < u32Range := array.size.toNat_lt

theorem offset_mod (below : index < u32Range) :
    index * array.width % sizeRange = index * array.width := by
  refine Nat.mod_eq_of_lt ?_
  have product := Nat.mul_lt_mul'' below array.width_lt
  exact product.trans_eq (by decide)

theorem index_apart (array : DataArray) (less : index < other) :
    index * array.width + array.width ≤ other * array.width := by
  rw [← Nat.succ_mul]
  exact Nat.mul_le_mul_right _ less

@[simp] theorem load_store_same (offset : Nat) (element : Nat → UInt8) :
    (array.store offset element).load offset = copied array.width element := by
  refine List.map_congr_left fun i member => ?_
  have below := List.mem_range.mp member
  have inside : offset ≤ offset + i ∧ offset + i < offset + array.width :=
    ⟨Nat.le_add_right .., Nat.add_lt_add_left below _⟩
  exact (if_pos inside).trans (by rw [Nat.add_sub_cancel_left])

theorem append_load (array : DataArray) (element : Nat → UInt8) (offset : Nat) :
    (array.append element).load offset =
      (array.store (array.size * array.elementSize).toNat element).load offset := rfl

@[simp] theorem append_width (array : DataArray) (element : Nat → UInt8) :
    (array.append element).width = array.width := rfl

@[simp] theorem append_size (array : DataArray) (element : Nat → UInt8) :
    (array.append element).size = array.size + 1 := rfl

@[simp] theorem append_capacity (array : DataArray) (element : Nat → UInt8) :
    (array.append element).capacity = array.capacity := rfl

theorem load_congr (array after : DataArray) (width : after.width = array.width) {offset : Nat}
    (same : ∀ i, offset ≤ i → i < offset + array.width → after.bytes i = array.bytes i) :
    after.load offset = array.load offset := by
  rw [load, load, width]
  refine List.map_congr_left fun i member => ?_
  exact same _ (Nat.le_add_right ..) (Nat.add_lt_add_left (List.mem_range.mp member) _)

theorem load_store_apart {offset place : Nat} {element : Nat → UInt8}
    (apart : place + array.width ≤ offset ∨ offset + array.width ≤ place) :
    (array.store offset element).load place = array.load place := by
  refine load_congr array (array.store offset element) rfl fun i lower upper => if_neg ?_
  omega

theorem darrayGet_out (array : DataArray) (index : Nat) :
    (array.darrayGet index).bind (fun got => got.2.out) =
      if index < array.size.toNat then some (array.load (index * array.width)) else none := by
  rw [darrayGet]
  by_cases below : index < array.size.toNat
  · rw [if_neg (by omega), if_pos below, offset_mod (below.trans array.size_lt)]
    rfl
  · rw [if_pos (by omega), if_neg below]
    rfl

theorem sub_one (some : array.size ≠ 0) :
    (array.size - 1).toNat + 1 = array.size.toNat := by
  have positive : 0 < array.size.toNat := by
    rw [Nat.pos_iff_ne_zero]
    exact fun zero => some (UInt32.toNat_inj.mp zero)
  have one : (1 : UInt32) ≤ array.size := by
    rw [UInt32.le_iff_toNat_le]
    exact positive
  rw [UInt32.toNat_sub_of_le _ _ one]
  exact Nat.sub_add_cancel positive

end DataArray

theorem RefinesList.length {array : DataArray} {list : List (List UInt8)}
    (refines : RefinesList array list) : list.length = array.size.toNat := by
  have shown : ∀ index, list[index]? =
      if index < array.size.toNat then some (array.load (index * array.width)) else none :=
    fun index => (refines.contents index).symm.trans (array.darrayGet_out index)
  have last := shown array.size.toNat
  rw [if_neg (lt_irrefl _), List.getElem?_eq_none_iff] at last
  refine le_antisymm last ?_
  by_contra short
  have missing := shown list.length
  rw [if_pos (by omega), List.getElem?_eq_none le_rfl] at missing
  cases missing

open DataArray in
theorem ArrayOp.act_width {array after : DataArray} {op : ArrayOp} {transfer : Transfer}
    (acts : op.act array = some (after, transfer)) : after.width = array.width := by
  cases op with
  | push realloc element =>
      obtain ⟨grown, grows, result⟩ := Option.map_eq_some_iff.mp acts
      obtain rfl := congrArg Prod.fst result
      split_ifs at grows with full
      · obtain ⟨other, _, rfl⟩ := Option.map_eq_some_iff.mp grows
        rfl
      · obtain rfl := Option.some.inj grows
        rfl
  | pop out =>
      simp only [act, darrayPop, Option.ite_none_left_eq_some] at acts
      obtain rfl := congrArg Prod.fst (Option.some.inj acts.2)
      rfl
  | get index =>
      simp only [act, darrayGet, Option.ite_none_left_eq_some] at acts
      obtain rfl := congrArg Prod.fst (Option.some.inj acts.2)
      rfl
  | set index element =>
      simp only [act, darraySet, Option.ite_none_left_eq_some] at acts
      obtain rfl := congrArg Prod.fst (Option.some.inj acts.2)
      rfl
  | getLast =>
      simp only [act, darrayGetLast, Option.ite_none_left_eq_some] at acts
      obtain rfl := congrArg Prod.fst (Option.some.inj acts.2)
      rfl

structure Sound (array : DataArray) (list : List (List UInt8)) : Prop where
  shown : ∀ index, list[index]? =
    if index < array.size.toNat then some (array.load (index * array.width)) else none
  block : array.capacity.toNat * array.width ≤ array.block
  size : array.size.toNat ≤ array.capacity.toNat
  offsets : ∀ index < array.size.toNat, index * array.width < u32Range

namespace Sound

open DataArray

variable {array after : DataArray} {list : List (List UInt8)} {index : Nat} {transfer : Transfer}

theorem refines (sound : Sound array list) : RefinesList array list :=
  ⟨fun index => (array.darrayGet_out index).trans (sound.shown index).symm, sound.block,
    UInt32.le_iff_toNat_le.mpr sound.size⟩

theorem length (sound : Sound array list) : list.length = array.size.toNat :=
  sound.refines.length

theorem inside (sound : Sound array list) (below : index < array.capacity.toNat) :
    index * array.width + array.width ≤ array.block :=
  (array.index_apart below).trans sound.block

theorem resize (sound : Sound array list) {realloc : Nat → Option (Nat → UInt8)}
    (doubles : 2 * array.capacity.toNat < u32Range)
    (resized : array.darrayResize realloc = some after) :
    Sound after list ∧ after.size = array.size ∧ after.elementSize = array.elementSize ∧
      array.capacity.toNat < after.capacity.toNat := by
  obtain ⟨other, _, made⟩ := Option.map_eq_some_iff.mp resized
  have larger : array.capacity.toNat < after.capacity.toNat := by
    rw [← made]
    dsimp only
    split_ifs with zero
    · rw [zero]
      decide
    · have positive : array.capacity.toNat ≠ 0 := fun none => zero (UInt32.toNat_inj.mp none)
      have doubled : (array.capacity * 2).toNat = array.capacity.toNat * 2 := by
        rw [UInt32.toNat_mul]
        exact Nat.mod_eq_of_lt (by rw [Nat.mul_comm]; exact doubles)
      omega
  have same : after.size = array.size ∧ after.elementSize = array.elementSize := by
    rw [← made]
    exact ⟨rfl, rfl⟩
  have width : after.width = array.width := congrArg UInt32.toNat same.2
  have block : after.block = after.capacity.toNat * array.width := by
    refine Eq.trans ?_ (array.offset_mod after.capacity.toNat_lt)
    rw [← made]
  have kept : ∀ i, i < min array.block after.block → after.bytes i = array.bytes i := by
    rw [← made]
    exact fun i inside => if_pos inside
  refine ⟨⟨fun index => ?_, ?_, ?_, ?_⟩, same.1, same.2, larger⟩
  · rw [sound.shown index, same.1, width]
    by_cases below : index < array.size.toNat
    · have old := sound.inside (below.trans_le sound.size)
      have room := array.index_apart (below.trans_le (sound.size.trans larger.le))
      rw [if_pos below, if_pos below]
      refine congrArg some (load_congr array after width fun i _ upper => kept i ?_).symm
      rw [block]
      exact lt_min (upper.trans_le old) (upper.trans_le room)
    · rw [if_neg below, if_neg below]
  · rw [block, width]
  · rw [same.1]
    exact sound.size.trans larger.le
  · rw [same.1, width]
    exact sound.offsets

theorem append (sound : Sound array list) (element : Nat → UInt8)
    (room : array.size.toNat < array.capacity.toNat)
    (fits : array.size.toNat * array.width < u32Range) :
    (array.size * array.elementSize).toNat = array.size.toNat * array.width ∧
      Sound (array.append element) (list ++ [copied array.width element]) := by
  have dest : (array.size * array.elementSize).toNat = array.size.toNat * array.width := by
    rw [UInt32.toNat_mul]
    exact Nat.mod_eq_of_lt fits
  have next : (array.append element).size.toNat = array.size.toNat + 1 := by
    rw [append_size, UInt32.toNat_add]
    exact Nat.mod_eq_of_lt ((Nat.succ_le_of_lt room).trans_lt array.capacity.toNat_lt)
  refine ⟨dest, fun index => ?_, sound.block, next.trans_le room, fun index below => ?_⟩
  · have length := sound.length
    rw [next, append_width, append_load, dest]
    rcases Nat.lt_trichotomy index array.size.toNat with below | rfl | above
    · have apart := array.index_apart below
      rw [List.getElem?_append_left (by omega), sound.shown index, if_pos below, if_pos (by omega),
        load_store_apart (Or.inl apart)]
    · rw [← length, List.getElem?_concat_length, if_pos (Nat.lt_succ_self _), length,
        load_store_same]
    · rw [if_neg (by omega), List.getElem?_eq_none]
      simp only [List.length_append, List.length_singleton]
      omega
  · rw [next] at below
    rcases Nat.lt_succ_iff_lt_or_eq.mp below with below | rfl
    · exact sound.offsets index below
    · exact fits

theorem push (sound : Sound array list) {realloc : Nat → Option (Nat → UInt8)}
    {element : Nat → UInt8} (fits : (ArrayOp.push realloc element).Fits array)
    (acts : array.darrayPush realloc element = some (after, transfer)) :
    Sound after (list ++ [copied array.width element]) ∧ transfer.out = none ∧
      ∀ offset, transfer.offset = some offset → offset + array.width ≤ after.block := by
  obtain ⟨grown, grows, result⟩ := Option.map_eq_some_iff.mp acts
  obtain ⟨larger, size, elementSize, room⟩ : Sound grown list ∧ grown.size = array.size ∧
      grown.elementSize = array.elementSize ∧ grown.size.toNat < grown.capacity.toNat := by
    split_ifs at grows with full
    · obtain ⟨larger, size, elementSize, room⟩ := sound.resize (fits.1 full) grows
      exact ⟨larger, size, elementSize, by rw [size]; exact sound.size.trans_lt room⟩
    · obtain rfl := Option.some.inj grows
      rw [UInt32.le_iff_toNat_le, Nat.not_le] at full
      exact ⟨sound, rfl, rfl, full⟩
  have width : grown.width = array.width := congrArg UInt32.toNat elementSize
  obtain ⟨offset, appended⟩ := larger.append element room (by rw [size, width]; exact fits.2)
  obtain ⟨rfl, rfl⟩ := Prod.mk.inj result
  rw [offset]
  rw [← width]
  refine ⟨appended, rfl, fun place same => ?_⟩
  obtain rfl := Option.some.inj same
  exact larger.inside room

theorem last (sound : Sound array list) (some_ : array.size ≠ 0) :
    ((array.size - 1) * array.elementSize).toNat = (array.size - 1).toNat * array.width ∧
      list.getLast? = some (array.load ((array.size - 1).toNat * array.width)) := by
  have one := sub_one some_
  have below : (array.size - 1).toNat < array.size.toNat := by omega
  constructor
  · rw [UInt32.toNat_mul]
    exact Nat.mod_eq_of_lt (sound.offsets _ below)
  · have index : list.length - 1 = (array.size - 1).toNat := by
      rw [sound.length]
      omega
    rw [List.getLast?_eq_getElem?, index, sound.shown, if_pos below]

theorem pop (sound : Sound array list) {out : Bool}
    (acts : array.darrayPop out = some (after, transfer)) :
    Sound after list.dropLast ∧ transfer.out = (if out then list.getLast? else none) ∧
      ∀ offset, transfer.offset = some offset → offset + array.width ≤ after.block := by
  rw [darrayPop] at acts
  by_cases empty : array.size = 0
  · rw [if_pos empty] at acts
    cases acts
  rw [if_neg empty] at acts
  obtain ⟨rfl, rfl⟩ := Prod.mk.inj (Option.some.inj acts)
  have one := sub_one empty
  obtain ⟨src, last⟩ := sound.last empty
  have below : (array.size - 1).toNat < array.size.toNat := by omega
  refine ⟨⟨fun index => ?_, sound.block, below.le.trans sound.size,
    fun index less => sound.offsets index (less.trans below)⟩, ?_, fun offset same => ?_⟩
  · have slot : ∀ offset, DataArray.load { array with size := array.size - 1 } offset =
        array.load offset := fun _ => rfl
    have length := sound.length
    rw [List.getElem?_dropLast, slot, sound.shown index]
    dsimp only
    by_cases shorter : index < (array.size - 1).toNat
    · rw [if_pos (by omega), if_pos (by omega), if_pos shorter]
      rfl
    · rw [if_neg (by omega), if_neg shorter]
  · cases out with
    | false => rfl
    | true =>
        rw [if_pos rfl, if_pos rfl, last]
        dsimp only
        rw [src]
  · cases out with
    | false => cases same
    | true =>
        obtain rfl := Option.some.inj same
        rw [src]
        exact sound.inside (below.trans_le sound.size)

theorem get (sound : Sound array list) (acts : array.darrayGet index = some (after, transfer)) :
    after = array ∧ transfer.out = list[index]? ∧
      ∀ offset, transfer.offset = some offset → offset + array.width ≤ after.block := by
  rw [darrayGet] at acts
  split_ifs at acts with beyond
  obtain ⟨rfl, rfl⟩ := Prod.mk.inj (Option.some.inj acts)
  have below : index < array.size.toNat := by omega
  have src := array.offset_mod (below.trans array.size_lt)
  dsimp only
  rw [src, sound.shown index, if_pos below]
  refine ⟨rfl, rfl, fun offset same => ?_⟩
  obtain rfl := Option.some.inj same
  exact sound.inside (below.trans_le sound.size)

theorem set (sound : Sound array list) {element : Nat → UInt8}
    (acts : array.darraySet index element = some (after, transfer)) :
    Sound after (list.set index (copied array.width element)) ∧ transfer.out = none ∧
      ∀ offset, transfer.offset = some offset → offset + array.width ≤ after.block := by
  rw [darraySet] at acts
  split_ifs at acts with beyond
  obtain ⟨rfl, rfl⟩ := Prod.mk.inj (Option.some.inj acts)
  have below : index < array.size.toNat := by omega
  have dest := array.offset_mod (below.trans array.size_lt)
  have length := sound.length
  dsimp only
  rw [dest]
  refine ⟨⟨fun other => ?_, sound.block, sound.size, sound.offsets⟩, rfl, fun offset same => ?_⟩
  · have width : (array.store (index * array.width) element).width = array.width := rfl
    have size : (array.store (index * array.width) element).size = array.size := rfl
    rw [List.getElem?_set, width, size]
    rcases Nat.lt_trichotomy index other with less | rfl | less
    · rw [if_neg (by omega), load_store_apart (Or.inr (array.index_apart less))]
      exact sound.shown other
    · rw [if_pos rfl, if_pos (by omega), if_pos below, load_store_same]
    · rw [if_neg (by omega), load_store_apart (Or.inl (array.index_apart less))]
      exact sound.shown other
  · obtain rfl := Option.some.inj same
    exact sound.inside (below.trans_le sound.size)

theorem getLast (sound : Sound array list)
    (acts : array.darrayGetLast = some (after, transfer)) :
    after = array ∧ transfer.out = list.getLast? ∧
      ∀ offset, transfer.offset = some offset → offset + array.width ≤ after.block := by
  rw [darrayGetLast] at acts
  split_ifs at acts with empty
  obtain ⟨rfl, rfl⟩ := Prod.mk.inj (Option.some.inj acts)
  obtain ⟨src, last⟩ := sound.last empty
  have one := sub_one empty
  rw [src, last]
  refine ⟨rfl, rfl, fun offset same => ?_⟩
  obtain rfl := Option.some.inj same
  exact sound.inside (by have := sound.size; omega)

theorem step (sound : Sound array list) {op : ArrayOp} (fits : op.Fits array)
    (acts : op.act array = some (after, transfer)) :
    Sound after (op.onList array.width list).1 ∧
      StepRefines array list op after transfer := by
  suffices whole : Sound after (op.onList array.width list).1 ∧
      transfer.out = (op.onList array.width list).2 ∧
      ∀ offset, transfer.offset = some offset → offset + array.width ≤ after.block from
    ⟨whole.1, whole.1.refines, whole.2.1, whole.2.2⟩
  cases op with
  | push realloc element => exact sound.push fits acts
  | pop out => exact sound.pop acts
  | get index =>
      obtain ⟨rfl, rest⟩ := sound.get acts
      exact ⟨sound, rest⟩
  | set index element => exact sound.set acts
  | getLast =>
      obtain ⟨rfl, rest⟩ := sound.getLast acts
      exact ⟨sound, rest⟩

end Sound

theorem copied_head {width : Nat} {left right : Nat → UInt8} (positive : 0 < width)
    (same : copied width left = copied width right) : left 0 = right 0 := by
  have first := congrArg List.head? same
  obtain ⟨width, rfl⟩ := Nat.exists_eq_add_one_of_ne_zero positive.ne'
  rw [copied, copied, List.range_succ_eq_map] at first
  exact Option.some.inj first

section Necessity

open DataArray

variable {array : DataArray} {list : List (List UInt8)}

theorem RefinesList.doubles (refines : RefinesList array list)
    (works : ∀ realloc element, OpRefines array list (.push realloc element))
    (full : array.capacity ≤ array.size) : 2 * array.capacity.toNat < u32Range := by
  by_contra wraps
  have positive : array.capacity ≠ 0 := by
    intro zero
    rw [zero] at wraps
    exact wraps (by decide)
  have after := (works (fun _ => some fun _ => 0) (fun _ => 0) _ _ (by
    rw [ArrayOp.act, darrayPush, if_pos full, darrayResize, if_neg positive, Option.map_some,
      Option.map_some])).refines
  have count := after.length
  have size := UInt32.le_iff_toNat_le.mp after.size
  have old := refines.length
  have bound := array.capacity.toNat_lt
  rw [UInt32.le_iff_toNat_le] at full
  simp only [ArrayOp.onList, List.length_append, List.length_singleton] at count
  rw [← count, append_capacity] at size
  have capacity : (array.capacity * 2).toNat = array.capacity.toNat * 2 % u32Range :=
    UInt32.toNat_mul ..
  simp only [capacity, u32Range] at size wraps
  omega

theorem RefinesList.offset (refines : RefinesList array list) (positive : 0 < array.width)
    (works : ∀ realloc element, OpRefines array list (.push realloc element)) :
    array.size.toNat * array.width < u32Range := by
  by_contra wraps
  obtain ⟨grown, grows, size, elementSize⟩ : ∃ grown,
      (if array.capacity ≤ array.size then array.darrayResize fun _ => some fun _ => 0
        else some array) = some grown ∧ grown.size = array.size ∧
          grown.elementSize = array.elementSize := by
    split_ifs with full
    · exact ⟨_, rfl, rfl, rfl⟩
    · exact ⟨_, rfl, rfl, rfl⟩
  have width : grown.width = array.width := congrArg UInt32.toNat elementSize
  have after := (works (fun _ => some fun _ => 0)
    (fun _ => grown.bytes (array.size.toNat * array.width) + 1) _ _ (by
    rw [ArrayOp.act, darrayPush, grows, Option.map_some])).refines
  have shown := after.contents array.size.toNat
  have old := refines.length
  have dest : (grown.size * grown.elementSize).toNat =
      array.size.toNat * array.width % u32Range := by
    rw [size, elementSize]
    exact UInt32.toNat_mul ..
  have apart : array.size.toNat * array.width % u32Range + grown.width ≤
      array.size.toNat * array.width := by
    have short := array.width_lt
    have remainder := Nat.mod_lt (array.size.toNat * array.width) (by decide : 0 < u32Range)
    have whole := Nat.mod_add_div (array.size.toNat * array.width) u32Range
    have times : 1 ≤ array.size.toNat * array.width / u32Range :=
      (Nat.one_le_div_iff (by decide)).mpr (Nat.le_of_not_lt wraps)
    have once := Nat.mul_le_mul_left u32Range times
    rw [width]
    omega
  rw [darrayGet_out, append_width, append_load, dest, width, load_store_apart (Or.inr apart),
    ArrayOp.onList, ← old, List.getElem?_concat_length, old, load, width] at shown
  split_ifs at shown with below
  have first := copied_head positive (Option.some.inj shown)
  simp at first

end Necessity

section Creation

open DataArray

variable {m after : Memory} {elementSize initialCapacity : UInt32} {array : DataArray}
  {list : List (List UInt8)}

structure Created (elementSize initialCapacity : UInt32) (array : DataArray) : Prop where
  size : array.size = 0
  elementSize : array.elementSize = elementSize
  capacity : array.capacity = if 0 < initialCapacity then initialCapacity else 8
  positive : 0 < array.width
  block : array.block = array.capacity.toNat * array.width % u32Range

theorem darrayCreate_spec
    (made : darrayCreate m elementSize initialCapacity = some (after, some array)) :
    Created elementSize initialCapacity array := by
  rw [darrayCreate] at made
  by_cases zero : elementSize = 0
  · rw [if_pos zero] at made
    cases made
  · rw [if_neg zero] at made
    split at made
    · cases made
    · cases made
    · dsimp only at made
      split at made
      · cases made
      · cases made
      · obtain rfl := Option.some.inj (congrArg Prod.snd (Option.some.inj made))
        refine ⟨rfl, rfl, rfl, Nat.pos_of_ne_zero fun none => zero (UInt32.toNat_inj.mp none), ?_⟩
        exact UInt32.toNat_mul ..

theorem Sound.created (made : darrayCreate m elementSize initialCapacity = some (after, some array))
    (fits : array.capacity.toNat * array.width < u32Range) : Sound array [] := by
  have created := darrayCreate_spec made
  have none : array.size.toNat = 0 := congrArg UInt32.toNat created.size
  refine ⟨fun index => ?_, ?_, none ▸ Nat.zero_le _, fun index below => ?_⟩
  · rw [none]
    rfl
  · rw [created.block, Nat.mod_eq_of_lt fits]
  · rw [none] at below
    cases below

theorem created_refines_iff
    (made : darrayCreate m elementSize initialCapacity = some (after, some array)) :
    RefinesList array [] ↔ array.capacity.toNat * array.width < u32Range := by
  constructor
  · intro refines
    have block := refines.block
    rw [(darrayCreate_spec made).block] at block
    exact block.trans_lt (Nat.mod_lt _ (by decide))
  · exact fun fits => (Sound.created made fits).refines

theorem ArrayRun.sound (run : ArrayRun elementSize initialCapacity array list) :
    Sound array list ∧ 0 < array.width := by
  induction run with
  | create made fits => exact ⟨Sound.created made fits, (darrayCreate_spec made).positive⟩
  | step before fits acts ih =>
      refine ⟨(ih.1.step fits acts).1, ?_⟩
      rw [ArrayOp.act_width acts]
      exact ih.2

end Creation

/-- A new array has room for its capacity exactly when the product does not wrap around, and in
every run without a wrap the array is the list of the same operations, where the next push works
for all elements exactly when it does not wrap around. -/
theorem darray_refines_iff (elementSize initialCapacity : UInt32) :
    (∀ m after array, darrayCreate m elementSize initialCapacity = some (after, some array) →
      (RefinesList array [] ↔ array.capacity.toNat * array.width < u32Range)) ∧
    ∀ array list, ArrayRun elementSize initialCapacity array list →
      RefinesList array list ∧ (∀ op : ArrayOp, op.Fits array → OpRefines array list op) ∧
        ((∀ realloc element, OpRefines array list (.push realloc element)) ↔ PushFits array) := by
  refine ⟨fun m after array made => created_refines_iff made, fun array list run => ?_⟩
  obtain ⟨sound, positive⟩ := run.sound
  have step : ∀ op : ArrayOp, op.Fits array → OpRefines array list op :=
    fun op fits after transfer acts => (sound.step fits acts).2
  refine ⟨sound.refines, step, fun works => ?_, fun fits realloc element => step _ fits⟩
  exact ⟨sound.refines.doubles works, sound.refines.offset positive works⟩

theorem darray_refines_one : ∃ array, ArrayRun 4 2 array [[7, 7, 7, 7]] ∧
    RefinesList array [[7, 7, 7, 7]] := by
  have runs : ((darrayCreate (initMemory 0 (fun _ => 0) 40000) 4 2).bind Prod.snd).isSome = true := by
    decide +kernel
  obtain ⟨array, runs⟩ := Option.isSome_iff_exists.mp runs
  obtain ⟨⟨after, _⟩, made, rfl⟩ := Option.bind_eq_some_iff.mp runs
  have created := darrayCreate_spec made
  have capacity : array.capacity = 2 := created.capacity
  have width : array.width = 4 := congrArg UInt32.toNat created.elementSize
  have run : ArrayRun 4 2 array [] := .create made (by rw [capacity, width]; decide)
  have fits : (ArrayOp.push (fun _ => none) fun _ => 7).Fits array := by
    refine PushFits.mk (fun full => ?_) ?_
    · rw [capacity]
      decide
    · rw [created.size, width]
      decide
  have acts : (ArrayOp.push (fun _ => none) fun _ => 7).act array =
      some (array.append fun _ => 7,
        { offset := some (array.size * array.elementSize).toNat, out := none }) := by
    rw [ArrayOp.act, DataArray.darrayPush, if_neg (by rw [capacity, created.size]; decide),
      Option.map_some]
  have next := run.step fits acts
  rw [ArrayOp.onList, width] at next
  exact ⟨_, next, ((darray_refines_iff 4 2).2 _ _ next).1⟩

/-- 65537 elements of 65536 bytes get a block of 65536 bytes. -/
theorem short_block_created : ∃ after array,
    darrayCreate (initMemory 0 (fun _ => 0) 200000) 65536 65537 = some (after, some array) ∧
      ¬RefinesList array [] := by
  have runs : ((darrayCreate (initMemory 0 (fun _ => 0) 200000) 65536 65537).bind
      Prod.snd).isSome = true := by
    decide +kernel
  obtain ⟨array, runs⟩ := Option.isSome_iff_exists.mp runs
  obtain ⟨⟨after, _⟩, made, rfl⟩ := Option.bind_eq_some_iff.mp runs
  have created := darrayCreate_spec made
  have capacity : array.capacity = 65537 := created.capacity
  have width : array.width = 65536 := congrArg UInt32.toNat created.elementSize
  refine ⟨after, array, made, fun refines => ?_⟩
  have fits := (created_refines_iff made).mp refines
  rw [capacity, width] at fits
  exact absurd fits (by decide)

end Gaveta
