import Gaveta.BTree.Node
import Gaveta.Library.Scratch

/-! The arrays `temp_keys` and `temp_children` of `split`. -/

namespace Gaveta

def zeroKey : Key := { id := .empty, dataRegisterRrn := 0 }

/-- The content of a slot of `temp_children`: the fill of `memset`, a slot of `children`, or the
record number of the incoming child. -/
inductive ChildSlot where
  | blank
  | own (slot : Nat)
  | incoming
deriving DecidableEq

namespace ChildSlot

def value (p : BtreeNode) (rChild : Option Rrn) : ChildSlot → Rrn
  | blank => noRrn
  | own slot => p.child slot
  | incoming => rChild.getD noRrn

def Real (p : BtreeNode) : ChildSlot → Prop
  | blank => False
  | own slot => slot < p.childNum
  | incoming => True

end ChildSlot

structure SplitTemps where
  keys : Scratch Key
  children : Scratch ChildSlot

/-- The loops that copy the node; the one over the children goes up to `i <= child_num`. -/
def copyNode (p : BtreeNode) : SplitTemps where
  keys := (Scratch.filled zeroKey).copyIn 0 p.keys
  children :=
    if p.leaf then .filled .blank
    else (Scratch.filled .blank).copyIn 0 ((List.range (p.childNum + 1)).map .own)

/-- The shifting loop from slot `pos - 1` down, with the slot left for the incoming key. -/
def shiftSlots (leaf : Bool) (id : CString) : Nat → SplitTemps → SplitTemps × Nat
  | 0, temps => (temps, 0)
  | pos + 1, temps =>
      let keys := temps.keys.look pos
      if strcmp (temps.keys.slots pos).id id > 0 then
        shiftSlots leaf id pos
          { keys := keys.moveUp pos
            children := if leaf then temps.children else temps.children.moveUp (pos + 1) }
      else ({ temps with keys := keys }, pos + 1)

def placeIncoming (p : BtreeNode) (incomingKey : Key) (rChild : Option Rrn)
    (shifted : SplitTemps × Nat) : SplitTemps where
  keys := shifted.1.keys.set shifted.2 incomingKey
  children :=
    if p.leaf = false ∧ rChild.isSome then shifted.1.children.set (shifted.2 + 1) .incoming
    else shifted.1.children

structure SplitRun where
  temps : SplitTemps
  halves : Halves
  /-- The entries of `temp_children` that go to one of the two nodes. -/
  copied : List ChildSlot

/-- `splitNode` with the arrays of the source. -/
def splitArrays (order : Nat) (p : BtreeNode) (incomingKey : Key) (rChild : Option Rrn)
    (newRrn : Rrn) : SplitRun :=
  let temps := placeIncoming p incomingKey rChild
    (shiftSlots p.leaf incomingKey.id p.keysNum (copyNode p))
  let half := (order - 1) / 2
  if p.leaf then
    let lower := temps.keys.copyOut 0 (half + 1)
    let upper := lower.1.copyOut (half + 1) (order - (half + 1))
    { temps := { temps with keys := upper.1 }
      halves :=
        { left := { p with keys := lower.2, nextLeaf := newRrn }
          promoKey := upper.2.headD zeroKey
          right :=
            { keys := upper.2, rrn := newRrn, children := [], nextLeaf := p.nextLeaf,
              leaf := true } }
      copied := [] }
  else
    let lower := temps.keys.copyOut 0 half
    let upper := (lower.1.look half).copyOut (half + 1) (order - half - 1)
    let lowChildren := temps.children.copyOut 0 (half + 1)
    let highChildren := lowChildren.1.copyOut (half + 1) (order - half - 1 + 1)
    { temps := { keys := upper.1, children := highChildren.1 }
      halves :=
        { left :=
            { p with
              keys := lower.2
              children := lowChildren.2.map (ChildSlot.value p rChild) }
          promoKey := temps.keys.slots half
          right :=
            { keys := upper.2
              rrn := newRrn
              children := highChildren.2.map (ChildSlot.value p rChild)
              nextLeaf := noRrn
              leaf := false } }
      copied := lowChildren.2 ++ highChildren.2 }

structure SplitInBounds (order : Nat) (p : BtreeNode) (run : SplitRun) : Prop where
  keys : run.temps.keys.Within order
  children : run.temps.children.Within (order + 1)
  real : ∀ slot ∈ run.copied, slot.Real p
  left : run.halves.left.keys ≠ []
  right : run.halves.right.keys ≠ []

structure BtreeNode.Sized (order : Nat) (node : BtreeNode) : Prop where
  keys : node.keysNum ≤ order - 1
  children : node.leaf = false → node.childNum = node.keysNum + 1

section Shift

variable {leaf : Bool} {id : CString} {count : Nat} {temps : SplitTemps}

structure Shifted (leaf : Bool) (count : Nat) (before after : SplitTemps) (pos : Nat) : Prop where
  bound : pos ≤ count
  keys : ∀ i, after.keys.slots i =
    if pos < i ∧ i ≤ count then before.keys.slots (i - 1) else before.keys.slots i
  children : ∀ i, after.children.slots i =
    if leaf = false ∧ pos + 1 < i ∧ i ≤ count + 1 then before.children.slots (i - 1)
    else before.children.slots i
  keyUses : ∀ size, after.keys.Within size ↔
    before.keys.Within size ∧ (count = 0 ∨ count ≤ size) ∧ (pos < count → count < size)
  childUses : ∀ size, after.children.Within size ↔
    before.children.Within size ∧ (leaf = false → pos < count → count + 1 < size)

theorem Shifted.refl (temps : SplitTemps) : Shifted leaf 0 temps temps 0 := by
  refine ⟨le_rfl, fun i => ?_, fun i => ?_, fun size => ?_, fun size => ?_⟩
  · rw [if_neg (by omega)]
  · rw [if_neg (by omega)]
  · simp
  · simp

theorem Shifted.stop (temps : SplitTemps) :
    Shifted leaf (count + 1) temps { temps with keys := temps.keys.look count } (count + 1) := by
  refine ⟨le_rfl, fun i => ?_, fun i => ?_, fun size => ?_, fun size => ?_⟩
  · rw [if_neg (by omega), Scratch.look_slots]
  · rw [if_neg (by omega)]
  · rw [Scratch.look_within]
    simp only [Nat.add_one_le_iff, Nat.add_one_ne_zero, false_or, Nat.lt_irrefl, false_imp_iff,
      and_true]
    exact and_comm
  · simp

theorem Shifted.next {after : SplitTemps} {pos : Nat}
    (shifted : Shifted leaf count
      { keys := (temps.keys.look count).moveUp count
        children := if leaf then temps.children else temps.children.moveUp (count + 1) }
      after pos) :
    Shifted leaf (count + 1) temps after pos := by
  have bound := shifted.bound
  refine ⟨by omega, fun i => ?_, fun i => ?_, fun size => ?_, fun size => ?_⟩
  · rw [shifted.keys]
    simp only [Scratch.moveUp_slots, Scratch.look_slots]
    rcases lt_trichotomy i (count + 1) with below | rfl | above
    · rw [if_neg (by omega : i - 1 ≠ count + 1), if_neg (by omega : i ≠ count + 1)]
      exact if_congr (by omega) rfl rfl
    · rw [if_neg (by omega), if_pos rfl, if_pos (by omega), Nat.add_sub_cancel]
    · rw [if_neg (by omega), if_neg (by omega), if_neg (by omega)]
  · rw [shifted.children]
    cases leaf with
    | true => simp
    | false =>
        simp only [Bool.false_eq_true, ↓reduceIte, true_and, Scratch.moveUp_slots]
        rcases lt_trichotomy i (count + 2) with below | rfl | above
        · rw [if_neg (by omega : i - 1 ≠ count + 1 + 1), if_neg (by omega : i ≠ count + 1 + 1)]
          exact if_congr (by omega) rfl rfl
        · rw [if_neg (by omega), if_pos rfl, if_pos (by omega)]
          rfl
        · rw [if_neg (by omega), if_neg (by omega), if_neg (by omega)]
  · rw [shifted.keyUses, Scratch.moveUp_within, Scratch.look_within]
    constructor
    · rintro ⟨⟨inside, _, before⟩, _, _⟩
      exact ⟨before, by omega, fun _ => inside⟩
    · rintro ⟨before, _, moved⟩
      have inside := moved (by omega)
      exact ⟨⟨inside, by omega, before⟩, by omega, fun _ => by omega⟩
  · rw [shifted.childUses]
    cases leaf with
    | true => simp
    | false =>
        simp only [Bool.false_eq_true, ↓reduceIte, Scratch.moveUp_within, true_imp_iff]
        constructor
        · rintro ⟨⟨inside, before⟩, _⟩
          exact ⟨before, fun _ => inside⟩
        · rintro ⟨before, moved⟩
          have inside := moved (by omega)
          exact ⟨⟨inside, before⟩, fun _ => by omega⟩

theorem shiftSlots_shifted (leaf : Bool) (id : CString) (count : Nat) (temps : SplitTemps) :
    Shifted leaf count temps (shiftSlots leaf id count temps).1
      (shiftSlots leaf id count temps).2 := by
  induction count generalizing temps with
  | zero => exact .refl temps
  | succ count ih =>
      rw [shiftSlots]
      by_cases above : strcmp (temps.keys.slots count).id id > 0
      · rw [if_pos above]
        exact (ih _).next
      · rw [if_neg above]
        exact .stop temps

theorem shiftSlots_position {keys : List Key} (bound : count ≤ keys.length)
    (same : ∀ i (inside : i < keys.length), i < count → temps.keys.slots i = keys[i]) :
    (shiftSlots leaf id count temps).2 = splitPosition keys id count := by
  induction count generalizing temps with
  | zero => rfl
  | succ count ih =>
      have slot : keys[count]? = some (temps.keys.slots count) := by
        rw [same count bound (Nat.lt_succ_self count)]
        exact List.getElem?_eq_getElem _
      rw [shiftSlots, splitPosition, slot]
      dsimp only
      by_cases above : strcmp (temps.keys.slots count).id id > 0
      · rw [if_pos above, if_pos above]
        refine ih (Nat.le_of_succ_le bound) fun i inside below => ?_
        rw [Scratch.moveUp_slots, if_neg (by omega), Scratch.look_slots]
        exact same i inside (Nat.lt_succ_of_lt below)
      · rw [if_neg above, if_neg above]

end Shift

theorem length_openSlot {α : Type} (slots : List α) (pos : Nat) (value : α) :
    (openSlot slots pos value).length = slots.length + 1 := by
  have split := congrArg List.length (List.take_append_drop pos slots)
  simp only [openSlot, List.length_append, List.length_cons] at split ⊢
  omega

theorem getElem_openSlot {α : Type} {slots : List α} {pos : Nat} {value : α}
    (bound : pos ≤ slots.length) {i : Nat} (inside : i < (openSlot slots pos value).length) :
    some (openSlot slots pos value)[i] =
      if i = pos then some value else if pos < i then slots[i - 1]? else slots[i]? := by
  have front : (slots.take pos).length = pos := List.length_take_of_le bound
  rw [← List.getElem?_eq_getElem inside, openSlot]
  rcases lt_trichotomy i pos with below | rfl | above
  · rw [if_neg (Nat.ne_of_lt below), if_neg (Nat.not_lt_of_gt below),
      List.getElem?_append_left (by omega), List.getElem?_take_of_lt below]
  · rw [if_pos rfl, List.getElem?_append_right (by omega), front, Nat.sub_self,
      List.getElem?_cons_zero]
  · have next : i - pos = i - pos - 1 + 1 := by omega
    rw [if_neg (Nat.ne_of_gt above), if_pos above, List.getElem?_append_right (by omega), front,
      next, List.getElem?_cons_succ, List.getElem?_drop]
    exact congrArg (slots[·]?) (by omega)

theorem opened_slots {α : Type} (before : Nat → α) {after : Scratch α} {slots : List α} {pos : Nat}
    {value : α} (bound : pos ≤ slots.length)
    (same : ∀ i (inside : i < slots.length), before i = slots[i])
    (moved : ∀ i ≤ slots.length, after.slots i = if pos < i then before (i - 1) else before i)
    {i : Nat} (inside : i < (openSlot slots pos value).length) :
    (after.set pos value).slots i = (openSlot slots pos value)[i] := by
  have length := length_openSlot slots pos value
  have content : ∀ j, j < slots.length → some (before j) = slots[j]? := by
    intro j below
    rw [same j below, List.getElem?_eq_getElem below]
  refine Option.some.inj ?_
  rw [getElem_openSlot bound inside, Scratch.set_slots, Function.update_apply,
    moved i (by omega)]
  split_ifs with here above
  · rfl
  · exact content _ (by omega)
  · exact content _ (by omega)

theorem map_openSlot {α β : Type} (f : α → β) (slots : List α) (pos : Nat) (value : α) :
    (openSlot slots pos value).map f = openSlot (slots.map f) pos (f value) := by
  simp [openSlot]

section Placed

variable {order : Nat} {p : BtreeNode} {k : Key} {rChild : Option Rrn} {newRrn : Rrn}

def placedTemps (p : BtreeNode) (k : Key) (rChild : Option Rrn) : SplitTemps :=
  placeIncoming p k rChild (shiftSlots p.leaf k.id p.keysNum (copyNode p))

def openPosition (p : BtreeNode) (k : Key) : Nat := splitPosition p.keys k.id p.keysNum

theorem shifted_copyNode (p : BtreeNode) (k : Key) :
    Shifted p.leaf p.keysNum (copyNode p) (shiftSlots p.leaf k.id p.keysNum (copyNode p)).1
      (openPosition p k) ∧
    (shiftSlots p.leaf k.id p.keysNum (copyNode p)).2 = openPosition p k := by
  have position : (shiftSlots p.leaf k.id p.keysNum (copyNode p)).2 = openPosition p k := by
    refine shiftSlots_position le_rfl fun i inside _ => ?_
    rw [copyNode, Scratch.filled_copyIn _ inside]
  refine ⟨?_, position⟩
  rw [← position]
  exact shiftSlots_shifted ..

theorem placedTemps_keys {i : Nat} (inside : i < (openSlot p.keys (openPosition p k) k).length) :
    (placedTemps p k rChild).keys.slots i = (openSlot p.keys (openPosition p k) k)[i] := by
  obtain ⟨shifted, position⟩ := shifted_copyNode p k
  rw [placedTemps, placeIncoming, position]
  refine opened_slots (copyNode p).keys.slots shifted.bound (fun j below => ?_)
    (fun j last => ?_) inside
  · rw [copyNode, Scratch.filled_copyIn _ below]
  · rw [shifted.keys]
    exact if_congr (and_iff_left last) rfl rfl

theorem placedTemps_children (branch : p.leaf = false) (given : rChild.isSome)
    (children : p.childNum = p.keysNum + 1) {i : Nat}
    (inside : i < (openSlot ((List.range p.childNum).map ChildSlot.own) (openPosition p k + 1)
      ChildSlot.incoming).length) :
    (placedTemps p k rChild).children.slots i =
      (openSlot ((List.range p.childNum).map ChildSlot.own) (openPosition p k + 1)
        ChildSlot.incoming)[i] := by
  obtain ⟨shifted, position⟩ := shifted_copyNode p k
  have bound := shifted.bound
  have counted : ((List.range p.childNum).map ChildSlot.own).length = p.childNum := by simp
  rw [placedTemps, placeIncoming, position, if_pos ⟨branch, given⟩]
  refine opened_slots (copyNode p).children.slots (by omega) (fun j below => ?_)
    (fun j last => ?_) inside
  · rw [copyNode, branch, if_neg Bool.false_ne_true, Scratch.filled_copyIn _ (by simp; omega)]
    simp
  · rw [shifted.children]
    have last_inside : j ≤ p.keysNum + 1 := by omega
    exact if_congr ⟨fun moved => moved.2.1, fun above => ⟨branch, above, last_inside⟩⟩ rfl rfl

theorem map_own (p : BtreeNode) (rChild : Option Rrn) :
    ((List.range p.childNum).map ChildSlot.own).map (ChildSlot.value p rChild) = p.children := by
  refine List.ext_getElem (by simp [BtreeNode.childNum]) fun i left right => ?_
  simp [ChildSlot.value, BtreeNode.child, right]

theorem keys_copyOut {a : Scratch Key} {start count : Nat}
    (same : a.slots = (placedTemps p k rChild).keys.slots) (long : start + count ≤ p.keysNum + 1) :
    (a.copyOut start count).2 =
      ((openSlot p.keys (openPosition p k) k).drop start).take count := by
  have length := length_openSlot p.keys (openPosition p k) k
  rw [BtreeNode.keysNum] at long
  refine Scratch.copyOut_eq _ (fun i inside => ?_) (by omega)
  rw [same]
  exact placedTemps_keys inside

theorem children_copyOut {a : Scratch ChildSlot} {start count : Nat} (branch : p.leaf = false)
    (given : rChild.isSome) (children : p.childNum = p.keysNum + 1)
    (same : a.slots = (placedTemps p k rChild).children.slots)
    (long : start + count ≤ p.childNum + 1) :
    (a.copyOut start count).2.map (ChildSlot.value p rChild) =
      ((openSlot p.children (openPosition p k + 1) (rChild.getD noRrn)).drop start).take count := by
  have length := length_openSlot ((List.range p.childNum).map ChildSlot.own)
    (openPosition p k + 1) ChildSlot.incoming
  rw [List.length_map, List.length_range] at length
  rw [Scratch.copyOut_eq _ (fun i inside => ?_) (length ▸ long), List.map_take, List.map_drop,
    map_openSlot, map_own]
  · rfl
  · rw [same]
    exact placedTemps_children branch given children inside

theorem splitArrays_leaf (leaf : p.leaf = true) (two : 2 ≤ order) (count : p.keysNum + 1 = order) :
    (splitArrays order p k rChild newRrn).halves = splitNode order p k rChild newRrn := by
  have length := length_openSlot p.keys (openPosition p k) k
  have counted : p.keysNum = p.keys.length := rfl
  have lower := @keys_copyOut p k rChild _ 0 ((order - 1) / 2 + 1) rfl (by omega)
  have upper := @keys_copyOut p k rChild
    ((placedTemps p k rChild).keys.copyOut 0 ((order - 1) / 2 + 1)).1 ((order - 1) / 2 + 1)
    (order - ((order - 1) / 2 + 1)) rfl (by omega)
  rw [splitArrays, splitNode, ← placedTemps, ← openPosition]
  simp only [leaf, ↓reduceIte, lower, upper, List.drop_zero]
  obtain ⟨first, rest, nonempty⟩ := List.exists_cons_of_length_pos
    (l := ((openSlot p.keys (openPosition p k) k).drop ((order - 1) / 2 + 1)).take
      (order - ((order - 1) / 2 + 1))) (by simp; omega)
  rw [nonempty]
  rfl

theorem splitArrays_branch (branch : p.leaf = false) (count : p.keysNum + 1 = order)
    (children : p.childNum = p.keysNum + 1) (given : rChild.isSome) :
    (splitArrays order p k rChild newRrn).halves = splitNode order p k rChild newRrn := by
  obtain ⟨rrn, rfl⟩ := Option.isSome_iff_exists.mp given
  have length := length_openSlot p.keys (openPosition p k) k
  have counted : p.keysNum = p.keys.length := rfl
  have lower := @keys_copyOut p k (some rrn) _ 0 ((order - 1) / 2) rfl (by omega)
  have upper := @keys_copyOut p k (some rrn)
    (((placedTemps p k (some rrn)).keys.copyOut 0 ((order - 1) / 2)).1.look ((order - 1) / 2))
    ((order - 1) / 2 + 1) (order - (order - 1) / 2 - 1) rfl (by omega)
  have low := @children_copyOut p k (some rrn) _ 0 ((order - 1) / 2 + 1) branch given children rfl
    (by omega)
  have high := @children_copyOut p k (some rrn)
    ((placedTemps p k (some rrn)).children.copyOut 0 ((order - 1) / 2 + 1)).1
    ((order - 1) / 2 + 1) (order - (order - 1) / 2 - 1 + 1) branch given children rfl (by omega)
  have middle := @placedTemps_keys p k (some rrn) ((order - 1) / 2) (by omega)
  have last : order - (order - 1) / 2 - 1 + 1 = order - (order - 1) / 2 := by omega
  rw [last] at high
  rw [splitArrays, splitNode, ← placedTemps, ← openPosition]
  simp only [branch, Bool.false_eq_true, ↓reduceIte, lower, upper, low, high, middle,
    List.drop_zero, last, Option.getD_some]
  rw [List.getD_eq_getElem?_getD, List.getElem?_eq_getElem (by omega), Option.getD_some]

/-- On a full node the arrays give the halves of `splitNode`. -/
theorem splitArrays_halves (two : 2 ≤ order) (sized : p.Sized order) (full : order - 1 ≤ p.keysNum)
    (given : p.leaf = false → rChild.isSome) :
    (splitArrays order p k rChild newRrn).halves = splitNode order p k rChild newRrn := by
  have few := sized.keys
  cases leaf : p.leaf with
  | true => exact splitArrays_leaf leaf two (by omega)
  | false => exact splitArrays_branch leaf (by omega) (sized.children leaf) (given leaf)

theorem placedTemps_keys_within (size : Nat) :
    (placedTemps p k rChild).keys.Within size ↔ p.keysNum < size := by
  obtain ⟨shifted, position⟩ := shifted_copyNode p k
  have bound := shifted.bound
  have count : p.keysNum = p.keys.length := rfl
  rw [placedTemps, placeIncoming, position, Scratch.set_within, shifted.keyUses, copyNode,
    Scratch.copyIn_within]
  simp only [Scratch.filled_within, and_true, Nat.zero_add]
  constructor
  · rintro ⟨inside, _, _, moved⟩
    by_cases last : openPosition p k = p.keysNum
    · omega
    · exact moved (by omega)
  · intro inside
    exact ⟨by omega, Or.inr (by omega), by omega, fun _ => inside⟩

theorem placedTemps_children_within (branch : p.leaf = false) (given : rChild.isSome) (size : Nat) :
    (placedTemps p k rChild).children.Within size ↔
      p.childNum < size ∧ p.keysNum + 1 < size := by
  obtain ⟨shifted, position⟩ := shifted_copyNode p k
  have bound := shifted.bound
  rw [placedTemps, placeIncoming, position, if_pos ⟨branch, given⟩, Scratch.set_within,
    shifted.childUses, copyNode, branch, if_neg Bool.false_ne_true, Scratch.copyIn_within]
  simp only [Scratch.filled_within, and_true, Nat.zero_add, List.length_map, List.length_range,
    List.map_eq_nil_iff, List.range_eq_nil, Nat.add_one_ne_zero, false_or, true_imp_iff]
  constructor
  · rintro ⟨inside, copied, moved⟩
    by_cases last : openPosition p k = p.keysNum
    · omega
    · exact ⟨copied, moved (by omega)⟩
  · intro inside
    exact ⟨by omega, inside.1, fun _ => inside.2⟩

theorem placedTemps_last (branch : p.leaf = false) (given : rChild.isSome) :
    ∃ i, (i = p.keysNum ∨ i = p.keysNum + 1) ∧
      (((placedTemps p k rChild).children.slots i).Real p ↔ p.keysNum < p.childNum) := by
  obtain ⟨shifted, position⟩ := shifted_copyNode p k
  have bound := shifted.bound
  have source : ((copyNode p).children.slots p.keysNum).Real p ↔ p.keysNum < p.childNum := by
    rw [copyNode, branch, if_neg Bool.false_ne_true]
    by_cases inside : p.keysNum < p.childNum + 1
    · rw [Scratch.filled_copyIn _ (by simpa using inside)]
      simp [ChildSlot.Real]
    · rw [Scratch.filled_copyIn_rest _ (by simpa using inside)]
      simp only [ChildSlot.Real, false_iff]
      omega
  by_cases last : openPosition p k = p.keysNum
  · refine ⟨p.keysNum, Or.inl rfl, ?_⟩
    rw [placedTemps, placeIncoming, position, if_pos ⟨branch, given⟩, Scratch.set_slots,
      Function.update_of_ne (by omega), shifted.children, if_neg (by omega)]
    exact source
  · refine ⟨p.keysNum + 1, Or.inr rfl, ?_⟩
    rw [placedTemps, placeIncoming, position, if_pos ⟨branch, given⟩, Scratch.set_slots,
      Function.update_of_ne (by omega), shifted.children, if_pos ⟨branch, by omega, le_rfl⟩,
      Nat.add_sub_cancel]
    exact source

theorem placedTemps_real (branch : p.leaf = false) (given : rChild.isSome)
    (children : p.childNum = p.keysNum + 1) {i : Nat} (inside : i ≤ p.childNum) :
    ((placedTemps p k rChild).children.slots i).Real p := by
  have length := length_openSlot ((List.range p.childNum).map ChildSlot.own)
    (openPosition p k + 1) ChildSlot.incoming
  rw [List.length_map, List.length_range] at length
  rw [placedTemps_children branch given children (by omega)]
  rcases mem_openSlot.mp (List.getElem_mem _) with placed | listed
  · rw [placed]
    exact trivial
  · obtain ⟨index, below, same⟩ := List.mem_map.mp listed
    rw [← same]
    exact List.mem_range.mp below

theorem splitArrays_keys_within {size : Nat}
    (within : (splitArrays order p k rChild newRrn).temps.keys.Within size) : p.keysNum < size := by
  rw [splitArrays, ← placedTemps] at within
  dsimp only at within
  split at within
  · rw [Scratch.copyOut_within, Scratch.copyOut_within, placedTemps_keys_within] at within
    exact within.2.2
  · rw [Scratch.copyOut_within, Scratch.look_within, Scratch.copyOut_within,
      placedTemps_keys_within] at within
    exact within.2.2.2

theorem splitInBounds_leaf (leaf : p.leaf = true) (full : order - 1 ≤ p.keysNum) :
    SplitInBounds order p (splitArrays order p k rChild newRrn) ↔
      p.keysNum + 1 = order ∧ 2 ≤ order := by
  have blank : (placedTemps p k rChild).children.Within (order + 1) := by
    obtain ⟨shifted, position⟩ := shifted_copyNode p k
    rw [placedTemps, placeIncoming, if_neg (by simp [leaf]), shifted.childUses, copyNode, leaf]
    simp
  constructor
  · rintro ⟨keys, _, _, _, right⟩
    have room := splitArrays_keys_within keys
    rw [splitArrays] at right
    simp only [leaf, ↓reduceIte] at right
    rw [ne_eq, Scratch.copyOut_eq_nil] at right
    omega
  · rintro ⟨count, two⟩
    rw [splitArrays, ← placedTemps]
    simp only [leaf, ↓reduceIte]
    refine ⟨?_, blank, by simp, ?_, ?_⟩
    · rw [Scratch.copyOut_within, Scratch.copyOut_within, placedTemps_keys_within]
      omega
    · simp
    · rw [ne_eq, Scratch.copyOut_eq_nil]
      omega

theorem splitInBounds_branch (branch : p.leaf = false) (given : rChild.isSome)
    (full : order - 1 ≤ p.keysNum) :
    SplitInBounds order p (splitArrays order p k rChild newRrn) ↔
      p.keysNum + 1 = order ∧ p.childNum = order ∧ 3 ≤ order := by
  constructor
  · rintro ⟨keys, children, real, left, right⟩
    have room := splitArrays_keys_within keys
    rw [splitArrays, ← placedTemps] at children real left right
    simp only [branch, Bool.false_eq_true, ↓reduceIte] at children real left right
    rw [Scratch.copyOut_within, Scratch.copyOut_within,
      placedTemps_children_within branch given] at children
    rw [ne_eq, Scratch.copyOut_eq_nil] at left right
    obtain ⟨i, place, last⟩ := placedTemps_last (p := p) (k := k) branch given
    have copied := real ((placedTemps p k rChild).children.slots i) (by
      rw [List.mem_append, Scratch.mem_copyOut, Scratch.mem_copyOut]
      by_cases low : i < (order - 1) / 2 + 1
      · exact Or.inl ⟨i, by omega, rfl⟩
      · exact Or.inr ⟨i, by omega, rfl⟩)
    have enough := last.mp copied
    omega
  · rintro ⟨count, childCount, three⟩
    have same : p.childNum = p.keysNum + 1 := childCount.trans count.symm
    rw [splitArrays, ← placedTemps]
    simp only [branch, Bool.false_eq_true, ↓reduceIte]
    refine ⟨?_, ?_, ?_, ?_, ?_⟩
    · rw [Scratch.copyOut_within, Scratch.look_within, Scratch.copyOut_within,
        placedTemps_keys_within]
      omega
    · rw [Scratch.copyOut_within, Scratch.copyOut_within,
        placedTemps_children_within branch given]
      omega
    · intro slot member
      rw [List.mem_append, Scratch.mem_copyOut, Scratch.mem_copyOut] at member
      rcases member with ⟨i, bounds, rfl⟩ | ⟨i, bounds, rfl⟩
      · exact placedTemps_real branch given same (by omega)
      · exact placedTemps_real branch given same (by omega)
    · rw [ne_eq, Scratch.copyOut_eq_nil]
      omega
    · rw [ne_eq, Scratch.copyOut_eq_nil]
      omega

/-- A full node is split in bounds exactly if it has the sizes that insertions leave, and the order
leaves a key for each half. -/
theorem splitInBounds_iff (full : order - 1 ≤ p.keysNum) (given : p.leaf = false → rChild.isSome) :
    SplitInBounds order p (splitArrays order p k rChild newRrn) ↔
      p.Sized order ∧ (3 ≤ order ∨ order = 2 ∧ p.leaf = true) := by
  cases leaf : p.leaf with
  | true =>
      rw [splitInBounds_leaf leaf full]
      constructor
      · rintro ⟨count, two⟩
        refine ⟨⟨by omega, by simp [leaf]⟩, ?_⟩
        rw [and_iff_left rfl]
        omega
      · rintro ⟨sized, enough⟩
        have few := sized.keys
        rw [and_iff_left rfl] at enough
        omega
  | false =>
      rw [splitInBounds_branch leaf (given leaf) full]
      constructor
      · rintro ⟨count, childCount, three⟩
        exact ⟨⟨by omega, fun _ => by omega⟩, Or.inl three⟩
      · rintro ⟨sized, enough⟩
        have few := sized.keys
        have children := sized.children leaf
        have three : 3 ≤ order := enough.resolve_right fun small => by cases small.2
        omega

end Placed

end Gaveta
