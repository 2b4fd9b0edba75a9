import Gaveta.Library.SearchTree
import Mathlib.Data.List.Perm.Basic
import Mathlib.Tactic.Common

/-!
Insertion into a labelled search tree as a big-step relation: a node with room takes the record
or the separator that comes up from below, a full node is cut in two.
-/

namespace PagedTree

variable {ν κ τ ι : Type} [LinearOrder ι] (key : κ → ι)

inductive Outcome (ν κ : Type) (height : Nat) where
  | whole (tree : Tree ν κ height)
  | halves (left : Tree ν κ height) (separator : κ) (right : Tree ν κ height)

namespace Outcome

def inorder {height : Nat} : Outcome ν κ height → List (Item κ)
  | whole tree => PagedTree.inorder height tree
  | halves left separator right =>
      PagedTree.inorder height left ++ .separator separator :: PagedTree.inorder height right

def leaves {height : Nat} : Outcome ν κ height → List (Leaf ν κ)
  | whole tree => PagedTree.leaves height tree
  | halves left _ right => PagedTree.leaves height left ++ PagedTree.leaves height right

def labels {height : Nat} : Outcome ν κ height → List ν
  | whole tree => PagedTree.labels height tree
  | halves left _ right => PagedTree.labels height left ++ PagedTree.labels height right

def label {height : Nat} : Outcome ν κ height → ν
  | whole tree => PagedTree.label height tree
  | halves left _ _ => PagedTree.label height left

def Filled {height : Nat} (least low high : Nat) : Outcome ν κ height → Prop
  | whole tree => PagedTree.Filled least low high height tree
  | halves left _ right =>
      PagedTree.Filled low low high height left ∧ PagedTree.Filled low low high height right

end Outcome

/-- `Inserts key order k height tree outcome fresh`: inserting `k` in nodes of fewer than `order`
keys turns `tree` into `outcome`, taking the labels `fresh` for the new nodes in this order. -/
inductive Inserts (order : Nat) (k : κ) :
    (height : Nat) → Tree ν κ height → Outcome ν κ height → List ν → Prop
  | leafRoom {name next : ν} {before after : List κ}
      (lower : ∀ value ∈ before, key value < key k)
      (upper : ∀ value ∈ after, key k < key value)
      (room : (before ++ after).length < order - 1) :
      Inserts order k 0 (Leaf.mk name (before ++ after) next)
        (.whole (Leaf.mk name (before ++ k :: after) next)) []
  | leafSplit {name next new : ν} {before after left right : List κ} {middle : κ}
      (lower : ∀ value ∈ before, key value < key k)
      (upper : ∀ value ∈ after, key k < key value)
      (full : order - 1 ≤ (before ++ after).length)
      (cut : before ++ k :: after = left ++ middle :: right)
      (half : left.length = (order - 1) / 2 + 1) :
      Inserts order k 0 (Leaf.mk name (before ++ after) next)
        (.halves (Leaf.mk name left new) middle (Leaf.mk new (middle :: right) next)) [new]
  | pass {height : Nat} {name : ν} {before : List (Tree ν κ height × κ)}
      {child grown : Tree ν κ height} {after : List (κ × Tree ν κ height)} {fresh : List ν}
      (lower : ∀ pair ∈ before, key pair.2 < key k)
      (upper : ∀ pair ∈ after, key k < key pair.1)
      (below : Inserts order k height child (.whole grown) fresh) :
      Inserts order k (height + 1) (Branch.plug name before child after)
        (.whole (Branch.plug name before grown after)) fresh
  | branchRoom {height : Nat} {name : ν} {before : List (Tree ν κ height × κ)}
      {child left right : Tree ν κ height} {separator : κ}
      {after : List (κ × Tree ν κ height)} {fresh : List ν}
      (lower : ∀ pair ∈ before, key pair.2 < key k)
      (upper : ∀ pair ∈ after, key k < key pair.1)
      (below : Inserts order k height child (.halves left separator right) fresh)
      (room : before.length + after.length < order - 1) :
      Inserts order k (height + 1) (Branch.plug name before child after)
        (.whole (Branch.plug name before left ((separator, right) :: after))) fresh
  | branchSplit {height : Nat} {name new : ν} {before : List (Tree ν κ height × κ)}
      {child left right first middleChild : Tree ν κ height} {separator middle : κ}
      {after lowRest highRest : List (κ × Tree ν κ height)} {fresh : List ν}
      (lower : ∀ pair ∈ before, key pair.2 < key k)
      (upper : ∀ pair ∈ after, key k < key pair.1)
      (below : Inserts order k height child (.halves left separator right) fresh)
      (full : order - 1 ≤ before.length + after.length)
      (cut : Branch.plug name before left ((separator, right) :: after) =
        Branch.mk name first (lowRest ++ (middle, middleChild) :: highRest))
      (half : lowRest.length = (order - 1) / 2) :
      Inserts order k (height + 1) (Branch.plug name before child after)
        (.halves (Branch.mk name first lowRest) middle (Branch.mk new middleChild highRest))
        (fresh ++ [new])

section Listing

variable {key}

theorem front_below {height : Nat} {before : List (Tree ν κ height × κ)} {k : κ}
    {back : List (Item κ)}
    (sorted : InOrder key (before.flatMap (fun pair =>
      inorder height pair.1 ++ [.separator pair.2]) ++ back))
    (lower : ∀ pair ∈ before, key pair.2 < key k) :
    ∀ item ∈ before.flatMap (fun pair => inorder height pair.1 ++ [.separator pair.2]),
      key item.value < key k := by
  intro item member
  obtain ⟨pair, pairMember, inside⟩ := List.mem_flatMap.mp member
  rw [InOrder, List.pairwise_append, List.pairwise_flatMap] at sorted
  have chunk := sorted.1.1 pair pairMember
  rw [List.pairwise_append] at chunk
  rcases List.mem_append.mp inside with listed | last
  · have ordered := chunk.2.2 item listed (.separator pair.2) (by simp)
    exact lt_of_le_of_lt ordered.le (lower pair pairMember)
  · obtain rfl := List.mem_singleton.mp last
    exact lower pair pairMember

theorem back_above {height : Nat} {after : List (κ × Tree ν κ height)} {k : κ}
    (sorted : InOrder key (after.flatMap fun pair =>
      .separator pair.1 :: inorder height pair.2))
    (upper : ∀ pair ∈ after, key k < key pair.1) :
    ∀ item ∈ after.flatMap (fun pair => .separator pair.1 :: inorder height pair.2),
      key k < key item.value := by
  intro item member
  obtain ⟨pair, pairMember, inside⟩ := List.mem_flatMap.mp member
  rw [InOrder, List.pairwise_flatMap] at sorted
  have chunk := List.pairwise_cons.mp (sorted.1 pair pairMember)
  rcases List.mem_cons.mp inside with rfl | listed
  · exact upper pair pairMember
  · exact lt_of_lt_of_le (upper pair pairMember) (chunk.1 item listed)

/-- `after` is `before` with the record `k` put in its place and at most one separator, which
repeats the record to its right. -/
def ListsInsertion (key : κ → ι) (k : κ) (before after : List (Item κ)) : Prop :=
  ∃ front back, before = front ++ back ∧ (∀ item ∈ front, key item.value < key k) ∧
    (∀ item ∈ back, key k < key item.value) ∧
    (after = front ++ .record k :: back ∨
      ∃ left value right, front ++ .record k :: back = left ++ .record value :: right ∧
        after = left ++ .separator value :: .record value :: right)

theorem ListsInsertion.context {k : κ} {before after front back : List (Item κ)}
    (insertion : ListsInsertion key k before after)
    (lower : ∀ item ∈ front, key item.value < key k)
    (upper : ∀ item ∈ back, key k < key item.value) :
    ListsInsertion key k (front ++ (before ++ back)) (front ++ (after ++ back)) := by
  obtain ⟨innerFront, innerBack, rfl, innerLower, innerUpper, shape⟩ := insertion
  refine ⟨front ++ innerFront, innerBack ++ back, by simp, ?_, ?_, ?_⟩
  · intro item member
    exact (List.mem_append.mp member).elim (lower item) (innerLower item)
  · intro item member
    exact (List.mem_append.mp member).elim (innerUpper item) (upper item)
  · rcases shape with rfl | ⟨left, value, right, same, rfl⟩
    · exact Or.inl (by simp)
    · refine Or.inr ⟨front ++ left, value, right ++ back, ?_, by simp⟩
      have extended := congrArg (fun items => front ++ (items ++ back)) same
      simpa using extended

theorem lists_plug_whole {height : Nat} {k : κ} {name : ν} {before : List (Tree ν κ height × κ)}
    {child grown : Tree ν κ height} {after : List (κ × Tree ν κ height)}
    (sorted : InOrder key (inorder (height + 1) (Branch.plug name before child after)))
    (lower : ∀ pair ∈ before, key pair.2 < key k) (upper : ∀ pair ∈ after, key k < key pair.1)
    (below : ListsInsertion key k (inorder height child) (inorder height grown)) :
    ListsInsertion key k (inorder (height + 1) (Branch.plug name before child after))
      (inorder (height + 1) (Branch.plug name before grown after)) := by
  rw [inorder, Branch.interleave_plug] at sorted
  have rear := (List.pairwise_append.mp (List.pairwise_append.mp sorted).2.1).2.1
  rw [inorder, inorder, Branch.interleave_plug, Branch.interleave_plug]
  exact below.context (front_below sorted lower) (back_above rear upper)

theorem lists_plug_halves {height : Nat} {k : κ} {name : ν} {before : List (Tree ν κ height × κ)}
    {child left right : Tree ν κ height} {separator : κ} {after : List (κ × Tree ν κ height)}
    (sorted : InOrder key (inorder (height + 1) (Branch.plug name before child after)))
    (lower : ∀ pair ∈ before, key pair.2 < key k) (upper : ∀ pair ∈ after, key k < key pair.1)
    (below : ListsInsertion key k (inorder height child)
      (inorder height left ++ .separator separator :: inorder height right)) :
    ListsInsertion key k (inorder (height + 1) (Branch.plug name before child after))
      (inorder (height + 1) (Branch.plug name before left ((separator, right) :: after))) := by
  rw [inorder, Branch.interleave_plug] at sorted
  have rear := (List.pairwise_append.mp (List.pairwise_append.mp sorted).2.1).2.1
  rw [inorder, inorder, Branch.interleave_plug, Branch.interleave_plug]
  simpa using below.context (front_below sorted lower) (back_above rear upper)

theorem plug_child_inOrder {height : Nat} {name : ν} {before : List (Tree ν κ height × κ)}
    {child : Tree ν κ height} {after : List (κ × Tree ν κ height)}
    (sorted : InOrder key (inorder (height + 1) (Branch.plug name before child after))) :
    InOrder key (inorder height child) :=
  interleave_child_inOrder key sorted child (by simp)

theorem Inserts.lists {order height : Nat} {k : κ} {tree : Tree ν κ height}
    {outcome : Outcome ν κ height} {fresh : List ν}
    (inserts : Inserts key order k height tree outcome fresh)
    (sorted : InOrder key (inorder height tree)) :
    ListsInsertion key k (inorder height tree) outcome.inorder := by
  induction inserts with
  | @leafRoom name next before after lower upper room =>
      refine ⟨before.map .record, after.map .record, by simp [inorder], ?_, ?_, Or.inl ?_⟩
      · simpa using lower
      · simpa using upper
      · simp [Outcome.inorder, inorder]
  | @leafSplit name next new before after left right middle lower upper full cut half =>
      refine ⟨before.map .record, after.map .record, by simp [inorder], ?_, ?_, Or.inr ?_⟩
      · simpa using lower
      · simpa using upper
      · refine ⟨left.map .record, middle, right.map .record, ?_, ?_⟩
        · simpa using congrArg (List.map Item.record) cut
        · simp [Outcome.inorder, inorder]
  | pass lower upper below ih =>
      exact lists_plug_whole sorted lower upper (ih (plug_child_inOrder sorted))
  | branchRoom lower upper below room ih =>
      exact lists_plug_halves sorted lower upper (ih (plug_child_inOrder sorted))
  | @branchSplit height name new before child left right first middleChild separator middle after
      lowRest highRest fresh lower upper below full cut half ih =>
      have inner := lists_plug_halves sorted lower upper (ih (plug_child_inOrder sorted))
      have whole := Branch.interleave_cut (inorder height) name name new first lowRest middle
        middleChild highRest
      rw [cut, inorder, inorder, whole] at inner
      exact inner

theorem ListsInsertion.inOrder {k : κ} {before after : List (Item κ)}
    (insertion : ListsInsertion key k before after) (sorted : InOrder key before) :
    InOrder key after := by
  obtain ⟨front, back, rfl, lower, upper, shape⟩ := insertion
  have inserted : InOrder key (front ++ .record k :: back) := by
    rw [InOrder, List.pairwise_append] at sorted ⊢
    refine ⟨sorted.1, List.pairwise_cons.mpr ⟨upper, sorted.2.1⟩, ?_⟩
    intro left leftMember right rightMember
    rcases List.mem_cons.mp rightMember with rfl | rightMember
    · exact Item.before_of_lt key (lower left leftMember)
    · exact sorted.2.2 left leftMember right rightMember
  rcases shape with rfl | ⟨left, value, right, same, rfl⟩
  · exact inserted
  · rw [same, InOrder, List.pairwise_append, List.pairwise_cons] at inserted
    rw [InOrder, List.pairwise_append, List.pairwise_cons]
    refine ⟨inserted.1, ⟨?_, List.pairwise_cons.mpr inserted.2.1⟩, ?_⟩
    · intro item member
      rcases List.mem_cons.mp member with rfl | member
      · exact le_refl (key value)
      · exact (Item.Before.le key (inserted.2.1.1 item member))
    · intro item member other otherMember
      have known := inserted.2.2 item member (.record value) (by simp)
      rcases List.mem_cons.mp otherMember with rfl | otherMember
      · cases item <;> exact known
      · exact inserted.2.2 item member other otherMember

theorem ListsInsertion.records {k : κ} {before after : List (Item κ)}
    (insertion : ListsInsertion key k before after) :
    ∃ front back, before.filterMap Item.record? = front ++ back ∧
      after.filterMap Item.record? = front ++ k :: back ∧
      (∀ value ∈ front, key value < key k) ∧ (∀ value ∈ back, key k < key value) := by
  obtain ⟨front, back, rfl, lower, upper, shape⟩ := insertion
  have recorded : ∀ (items : List (Item κ)) value, value ∈ items.filterMap Item.record? →
      ∃ item ∈ items, item.value = value := by
    intro items value member
    obtain ⟨item, inside, found⟩ := List.mem_filterMap.mp member
    refine ⟨item, inside, ?_⟩
    cases item with
    | record other => simpa [Item.record?] using found
    | separator other => simp [Item.record?] at found
  refine ⟨front.filterMap Item.record?, back.filterMap Item.record?, by simp, ?_, ?_, ?_⟩
  · rcases shape with rfl | ⟨left, value, right, same, rfl⟩
    · simp [Item.record?]
    · have inserted := congrArg (List.filterMap Item.record?) same
      simpa [List.filterMap_cons, Item.record?] using inserted.symm
  · intro value member
    obtain ⟨item, inside, rfl⟩ := recorded front value member
    exact lower item inside
  · intro value member
    obtain ⟨item, inside, rfl⟩ := recorded back value member
    exact upper item inside

theorem ListsInsertion.mem_records {k value : κ} {before after : List (Item κ)}
    (insertion : ListsInsertion key k before after) :
    value ∈ after.filterMap Item.record? ↔ value = k ∨ value ∈ before.filterMap Item.record? := by
  obtain ⟨front, back, old, new, _, _⟩ := insertion.records
  rw [old, new]
  simp only [List.mem_append, List.mem_cons]
  tauto

theorem ListsInsertion.ne_key {k : κ} {before after : List (Item κ)}
    (insertion : ListsInsertion key k before after) : ∀ item ∈ before, key item.value ≠ key k := by
  obtain ⟨front, back, rfl, lower, upper, _⟩ := insertion
  intro item member
  rcases List.mem_append.mp member with member | member
  · exact ne_of_lt (lower item member)
  · exact ne_of_gt (upper item member)

theorem ListsInsertion.values {k : κ} {before after : List (Item κ)}
    (insertion : ListsInsertion key k before after) :
    ∀ item ∈ after, item.value = k ∨ ∃ old ∈ before, old.value = item.value := by
  obtain ⟨front, back, rfl, _, _, shape⟩ := insertion
  have placed : ∀ item ∈ front ++ .record k :: back,
      item.value = k ∨ ∃ old ∈ front ++ back, old.value = item.value := by
    intro item member
    simp only [List.mem_append, List.mem_cons] at member
    rcases member with member | rfl | member
    · exact Or.inr ⟨item, by simp [member], rfl⟩
    · exact Or.inl rfl
    · exact Or.inr ⟨item, by simp [member], rfl⟩
  rcases shape with rfl | ⟨left, value, right, same, rfl⟩
  · exact placed
  · rw [same] at placed
    intro item member
    simp only [List.mem_append, List.mem_cons] at member
    rcases member with member | rfl | member
    · exact placed item (by simp [member])
    · exact placed (.record value) (by simp)
    · exact placed item (by simpa using Or.inr member)

theorem ListsInsertion.separators_stored {k : κ} {before after : List (Item κ)}
    (insertion : ListsInsertion key k before after)
    (stored : ∀ value, Item.separator value ∈ before → Item.record value ∈ before) :
    ∀ value, Item.separator value ∈ after → Item.record value ∈ after := by
  obtain ⟨front, back, rfl, _, _, shape⟩ := insertion
  have kept : ∀ value, Item.separator value ∈ front ++ .record k :: back →
      Item.record value ∈ front ++ .record k :: back := by
    intro value member
    have old : Item.separator value ∈ front ++ back := by simpa using member
    have record := stored value old
    simp only [List.mem_append, List.mem_cons] at record ⊢
    exact record.imp_right Or.inr
  rcases shape with rfl | ⟨left, value, right, same, rfl⟩
  · exact kept
  · intro other member
    simp only [List.mem_append, List.mem_cons, Item.separator.injEq] at member
    rcases member with member | rfl | impossible | member
    · have record := kept other (by simp [same, member])
      simp only [same, List.mem_append, List.mem_cons] at record ⊢
      tauto
    · simp
    · cases impossible
    · have record := kept other (by simp [same, member])
      simp only [same, List.mem_append, List.mem_cons] at record ⊢
      tauto

end Listing

section Shape

variable {key}

theorem perm_context (front back : List ν) {inner outer extra : List ν}
    (permuted : inner.Perm (outer ++ extra)) :
    (front ++ (inner ++ back)).Perm (front ++ (outer ++ back) ++ extra) := by
  refine ((permuted.append_right back).append_left front).trans ?_
  simpa using (List.perm_append_comm.append_left outer).append_left front

theorem cut_children {name : ν} (low high : ν) {before : List (τ × κ)}
    {left right first middleChild : τ}
    {separator middle : κ} {after lowRest highRest : List (κ × τ)}
    (cut : Branch.plug name before left ((separator, right) :: after) =
      Branch.mk name first (lowRest ++ (middle, middleChild) :: highRest)) :
    (Branch.mk low first lowRest).children ++ (Branch.mk high middleChild highRest).children =
      before.map Prod.fst ++ left :: right :: after.map Prod.snd := by
  have whole := congrArg Branch.children cut
  rw [Branch.plug_children] at whole
  simpa [Branch.children] using whole.symm

theorem labels_plug_whole {height : Nat} (name : ν) (before : List (Tree ν κ height × κ))
    {child grown : Tree ν κ height} (after : List (κ × Tree ν κ height)) {fresh : List ν}
    (below : (PagedTree.labels height grown).Perm (PagedTree.labels height child ++ fresh)) :
    (PagedTree.labels (height + 1) (Branch.plug name before grown after)).Perm
      (PagedTree.labels (height + 1) (Branch.plug name before child after) ++ fresh) := by
  have inner := perm_context ((before.map Prod.fst).flatMap (PagedTree.labels height))
    ((after.map Prod.snd).flatMap (PagedTree.labels height)) below
  simpa [PagedTree.labels] using inner

theorem labels_plug_halves {height : Nat} (name : ν) (before : List (Tree ν κ height × κ))
    {child left right : Tree ν κ height} (separator : κ) (after : List (κ × Tree ν κ height))
    {fresh : List ν}
    (below : (PagedTree.labels height left ++ PagedTree.labels height right).Perm
      (PagedTree.labels height child ++ fresh)) :
    (PagedTree.labels (height + 1) (Branch.plug name before left ((separator, right) :: after))).Perm
      (PagedTree.labels (height + 1) (Branch.plug name before child after) ++ fresh) := by
  have inner := perm_context ((before.map Prod.fst).flatMap (PagedTree.labels height))
    ((after.map Prod.snd).flatMap (PagedTree.labels height)) below
  simpa [PagedTree.labels] using inner

theorem labels_cut {height : Nat} {name : ν} (new : ν) {first middleChild : Tree ν κ height}
    {lowRest highRest : List (κ × Tree ν κ height)} {middle : κ} :
    (PagedTree.labels (height + 1) (Branch.mk name first lowRest) ++
      PagedTree.labels (height + 1) (Branch.mk new middleChild highRest)).Perm
      (PagedTree.labels (height + 1)
        (Branch.mk name first (lowRest ++ (middle, middleChild) :: highRest)) ++ [new]) := by
  have moved (front back : List ν) : (front ++ new :: back).Perm (front ++ back ++ [new]) :=
    List.perm_middle.trans (List.perm_append_singleton new _).symm
  have last := moved ((Branch.mk name first lowRest).children.flatMap (PagedTree.labels height))
    ((Branch.mk new middleChild highRest).children.flatMap (PagedTree.labels height))
  simpa [PagedTree.labels, Branch.children] using last.cons name

theorem Inserts.labels {order height : Nat} {k : κ} {tree : Tree ν κ height}
    {outcome : Outcome ν κ height} {fresh : List ν}
    (inserts : Inserts key order k height tree outcome fresh) :
    outcome.labels.Perm (labels height tree ++ fresh) := by
  induction inserts with
  | leafRoom => simp [Outcome.labels, PagedTree.labels]
  | leafSplit => simp [Outcome.labels, PagedTree.labels]
  | @pass height name before child grown after fresh lower upper below ih =>
      exact labels_plug_whole name before after ih
  | @branchRoom height name before child left right separator after fresh lower upper below room
      ih =>
      exact labels_plug_halves name before separator after ih
  | @branchSplit height name new before child left right first middleChild separator middle after
      lowRest highRest fresh lower upper below full cut half ih =>
      have inner := labels_plug_halves name before separator after ih
      rw [cut] at inner
      rw [← List.append_assoc]
      exact (labels_cut new).trans (inner.append_right [new])

theorem Inserts.label {order height : Nat} {k : κ} {tree : Tree ν κ height}
    {outcome : Outcome ν κ height} {fresh : List ν}
    (inserts : Inserts key order k height tree outcome fresh) :
    outcome.label = label height tree := by
  induction inserts with
  | leafRoom => rfl
  | leafSplit => rfl
  | pass => simp [Outcome.label, PagedTree.label]
  | branchRoom => simp [Outcome.label, PagedTree.label]
  | branchSplit => simp [Outcome.label, PagedTree.label]

theorem leaves_plug {height : Nat} (name : ν) (before : List (Tree ν κ height × κ))
    (child : Tree ν κ height) (after : List (κ × Tree ν κ height)) :
    leaves (height + 1) (Branch.plug name before child after) =
      (before.map Prod.fst).flatMap (leaves height) ++
        (leaves height child ++ (after.map Prod.snd).flatMap (leaves height)) := by
  simp [leaves]

theorem leaves_cut {height : Nat} {name new : ν} {before : List (Tree ν κ height × κ)}
    {left right first middleChild : Tree ν κ height} {separator middle : κ}
    {after lowRest highRest : List (κ × Tree ν κ height)}
    (cut : Branch.plug name before left ((separator, right) :: after) =
      Branch.mk name first (lowRest ++ (middle, middleChild) :: highRest)) :
    leaves (height + 1) (Branch.mk name first lowRest) ++
      leaves (height + 1) (Branch.mk new middleChild highRest) =
      (before.map Prod.fst).flatMap (leaves height) ++
        ((leaves height left ++ leaves height right) ++
          (after.map Prod.snd).flatMap (leaves height)) := by
  rw [leaves, leaves, ← List.flatMap_append, cut_children name new cut]
  simp

def KeepsChain (before after : List (Leaf ν κ)) : Prop :=
  after.head?.map Leaf.label = before.head?.map Leaf.label ∧
    ∀ stop, Linked before stop → Linked after stop

theorem KeepsChain.context {before after : List (Leaf ν κ)} (keeps : KeepsChain before after)
    (front back : List (Leaf ν κ)) :
    KeepsChain (front ++ (before ++ back)) (front ++ (after ++ back)) := by
  have heads : (after ++ back).head?.map Leaf.label = (before ++ back).head?.map Leaf.label := by
    simp only [List.head?_append, Option.map_or, keeps.1]
  constructor
  · simp only [List.head?_append, Option.map_or] at heads ⊢
    rw [heads]
  · intro stop linked
    rw [linked_append, linked_append] at linked ⊢
    rw [heads]
    exact ⟨linked.1, keeps.2 _ linked.2.1, linked.2.2⟩

theorem Inserts.chain {order height : Nat} {k : κ} {tree : Tree ν κ height}
    {outcome : Outcome ν κ height} {fresh : List ν}
    (inserts : Inserts key order k height tree outcome fresh) :
    KeepsChain (leaves height tree) outcome.leaves := by
  induction inserts with
  | leafRoom => exact ⟨rfl, fun stop linked => linked⟩
  | leafSplit => exact ⟨rfl, fun stop linked => ⟨rfl, linked⟩⟩
  | @pass height name before child grown after fresh lower upper below ih =>
      rw [Outcome.leaves, leaves_plug, leaves_plug]
      exact ih.context _ _
  | @branchRoom height name before child left right separator after fresh lower upper below room
      ih =>
      rw [Outcome.leaves, leaves_plug, leaves_plug]
      simpa [Outcome.leaves] using ih.context ((before.map Prod.fst).flatMap (PagedTree.leaves height))
        ((after.map Prod.snd).flatMap (PagedTree.leaves height))
  | @branchSplit height name new before child left right first middleChild separator middle after
      lowRest highRest fresh lower upper below full cut half ih =>
      rw [Outcome.leaves, leaves_cut cut, leaves_plug]
      exact ih.context _ _

end Shape

section Fill

theorem filled_plug_halves {least low high height : Nat} {name : ν}
    {before : List (Tree ν κ height × κ)} {child left right : Tree ν κ height} (separator : κ)
    {after : List (κ × Tree ν κ height)}
    (filled : Filled least low high (height + 1) (Branch.plug name before child after))
    (halves : Filled low low high height left ∧ Filled low low high height right) :
    ∀ inner ∈ (Branch.plug name before left ((separator, right) :: after)).children,
      Filled low low high height inner := by
  have old := filled.2
  simp only [Branch.plug_children, List.map_cons, List.mem_append, List.mem_cons] at old ⊢
  rintro inner (member | rfl | rfl | member)
  · exact old inner (Or.inl member)
  · exact halves.1
  · exact halves.2
  · exact old inner (Or.inr (Or.inr member))

theorem Inserts.filled {order height least : Nat} {k : κ} {tree : Tree ν κ height}
    {outcome : Outcome ν κ height} {fresh : List ν}
    (inserts : Inserts key order k height tree outcome fresh)
    (filled : Filled least ((order - 1) / 2) (order - 1) height tree) :
    outcome.Filled least ((order - 1) / 2) (order - 1) := by
  induction inserts generalizing least with
  | @leafRoom name next before after lower upper room =>
      simp only [Filled, Outcome.Filled, List.length_append, List.length_cons] at filled room ⊢
      omega
  | @leafSplit name next new before after left right middle lower upper full cut half =>
      have counted := congrArg List.length cut
      simp only [Filled, Outcome.Filled, List.length_append, List.length_cons]
        at filled full counted ⊢
      omega
  | @pass height name before child grown after fresh lower upper below ih =>
      simp only [Filled, Outcome.Filled, Branch.plug_rest_length, Branch.plug_children,
        List.mem_append, List.mem_cons] at filled ih ⊢
      refine ⟨filled.1, ?_⟩
      rintro other (member | rfl | member)
      · exact filled.2 other (Or.inl member)
      · exact ih (filled.2 child (by simp))
      · exact filled.2 other (Or.inr (Or.inr member))
  | @branchRoom height name before child left right separator after fresh lower upper below room
      ih =>
      have inside := filled_plug_halves separator filled (ih (filled.2 child (by simp)))
      simp only [Filled, Outcome.Filled, Branch.plug_rest_length, List.length_cons] at filled ⊢
      exact ⟨by omega, inside⟩
  | @branchSplit height name new before child left right first middleChild separator middle after
      lowRest highRest fresh lower upper below full cut half ih =>
      have counted := congrArg (fun branch => branch.rest.length) cut
      have inside := filled_plug_halves separator filled (ih (filled.2 child (by simp)))
      rw [Branch.plug_children, List.map_cons, ← cut_children name new cut] at inside
      simp only [Filled, Outcome.Filled, Branch.plug_rest_length, List.length_append,
        List.length_cons] at filled counted ⊢
      exact ⟨⟨by omega, fun other member => inside other (List.mem_append_left _ member)⟩,
        ⟨by omega, fun other member => inside other (List.mem_append_right _ member)⟩⟩

/-- The number of full nodes on the descent for `k`, counted from the leaf up to the first node
with room: the number of nodes that inserting `k` cuts. -/
def fullRun (order : Nat) (k : ι) : (height : Nat) → Tree ν κ height → Nat
  | 0, leaf => if order - 1 ≤ (Leaf.records leaf).length then 1 else 0
  | height + 1, branch =>
      let below := fullRun order k height (pick key k (Branch.first branch) (Branch.rest branch))
      if below = height + 1 ∧ order - 1 ≤ (Branch.rest branch).length then below + 1 else below

theorem fullRun_le {order height : Nat} (k : ι) (tree : Tree ν κ height) :
    fullRun key order k height tree ≤ height + 1 := by
  induction height with
  | zero =>
      rw [fullRun]
      split_ifs <;> omega
  | succ height ih =>
      have below := ih (pick key k (Branch.first tree) (Branch.rest tree))
      rw [fullRun]
      split_ifs <;> omega

theorem fullRun_eq_zero_iff {order height : Nat} (k : ι) (tree : Tree ν κ height) :
    fullRun key order k height tree = 0 ↔
      (descend key k height tree).records.length < order - 1 := by
  induction height with
  | zero =>
      rw [fullRun, descend, ← not_le]
      split_ifs with full <;> simp [full]
  | succ height ih =>
      rw [fullRun, descend, ← ih]
      split_ifs with full
      · simp [full.1]
      · exact Iff.rfl

def Outcome.Reaches {height : Nat} (run : Nat) : Outcome ν κ height → Prop
  | whole _ => run ≤ height
  | halves _ _ _ => run = height + 1

theorem Inserts.fullRun {order height : Nat} {k : κ} {tree : Tree ν κ height}
    {outcome : Outcome ν κ height} {fresh : List ν}
    (inserts : Inserts key order k height tree outcome fresh) :
    fresh.length = fullRun key order (key k) height tree ∧
      outcome.Reaches (fullRun key order (key k) height tree) := by
  induction inserts with
  | leafRoom lower upper room =>
      rw [PagedTree.fullRun, if_neg (not_le.mpr room)]
      exact ⟨rfl, le_refl 0⟩
  | leafSplit lower upper full cut half =>
      rw [PagedTree.fullRun, if_pos full]
      exact ⟨rfl, rfl⟩
  | @pass height name before child grown after fresh lower upper below ih =>
      have picked := pick_plug key name child (fun pair member => le_of_lt (lower pair member)) upper
      simp only [Outcome.Reaches] at ih ⊢
      rw [PagedTree.fullRun, picked, if_neg (by omega)]
      exact ⟨ih.1, by omega⟩
  | @branchRoom height name before child left right separator after fresh lower upper below room
      ih =>
      have picked := pick_plug key name child (fun pair member => le_of_lt (lower pair member)) upper
      simp only [Outcome.Reaches] at ih ⊢
      rw [PagedTree.fullRun, picked, Branch.plug_rest_length, if_neg (by omega)]
      exact ⟨ih.1, by omega⟩
  | @branchSplit height name new before child left right first middleChild separator middle after
      lowRest highRest fresh lower upper below full cut half ih =>
      have picked := pick_plug key name child (fun pair member => le_of_lt (lower pair member)) upper
      simp only [Outcome.Reaches] at ih ⊢
      rw [PagedTree.fullRun, picked, Branch.plug_rest_length, if_pos ⟨ih.2, full⟩]
      exact ⟨by simp [ih.1], by omega⟩

end Fill

section Root

/-- Insertion at the root of a whole tree: a root that was cut gets a new root above it. -/
inductive Grows (order : Nat) (k : κ) {height : Nat} (tree : Tree ν κ height) :
    (grown : Nat) → Tree ν κ grown → List ν → Prop
  | level {after : Tree ν κ height} {fresh : List ν}
      (inserts : Inserts key order k height tree (.whole after) fresh) :
      Grows order k tree height after fresh
  | taller {left right : Tree ν κ height} {separator : κ} {fresh : List ν} {name : ν}
      (inserts : Inserts key order k height tree (.halves left separator right) fresh) :
      Grows order k tree (height + 1) (Branch.mk name left [(separator, right)])
        (fresh ++ [name])

variable {key}
variable {order height grown least : Nat} {k : κ} {tree : Tree ν κ height} {after : Tree ν κ grown}
  {fresh : List ν}

theorem Grows.lists (grows : Grows key order k tree grown after fresh)
    (sorted : InOrder key (inorder height tree)) :
    ListsInsertion key k (inorder height tree) (inorder grown after) := by
  cases grows with
  | level inserts => exact inserts.lists sorted
  | taller inserts => simpa [inorder, Branch.interleave, Outcome.inorder] using inserts.lists sorted

theorem Grows.labels (grows : Grows key order k tree grown after fresh) :
    (PagedTree.labels grown after).Perm (PagedTree.labels height tree ++ fresh) := by
  cases grows with
  | level inserts => exact inserts.labels
  | @taller left right separator fresh name inserts =>
      have front := (inserts.labels.cons name).trans (List.perm_append_singleton name _).symm
      simpa [PagedTree.labels, Branch.children, Outcome.labels] using front

theorem Grows.linked (grows : Grows key order k tree grown after fresh) {stop : ν}
    (linked : Linked (leaves height tree) stop) : Linked (leaves grown after) stop := by
  cases grows with
  | level inserts => exact inserts.chain.2 stop linked
  | taller inserts =>
      have chained := inserts.chain.2 stop linked
      simpa [leaves, Branch.children, Outcome.leaves] using chained

theorem Grows.filled (grows : Grows key order k tree grown after fresh) (two : 2 ≤ order)
    (filled : Filled 0 ((order - 1) / 2) (order - 1) height tree) :
    Filled 0 ((order - 1) / 2) (order - 1) grown after := by
  cases grows with
  | level inserts => exact inserts.filled key filled
  | taller inserts =>
      have halves := inserts.filled key filled
      simp only [Filled, List.length_singleton, Branch.children, List.map_cons, List.map_nil,
        List.mem_cons, List.not_mem_nil, or_false]
      refine ⟨by omega, ?_⟩
      rintro child (rfl | rfl)
      · exact halves.1
      · exact halves.2

end Root

end PagedTree
