import Gaveta.Library.PagedTree
import Mathlib.Order.Lattice

/-!
Order, fill and leaf chain of the trees of `PagedTree`.  A node-by-node search tree is the same
thing as a sorted in-order listing, as long as every child holds a record.
-/

namespace PagedTree

variable {ν κ τ ι : Type} [LinearOrder ι] (key : κ → ι)

def Item.Before : Item κ → Item κ → Prop
  | record value, item => key value < key item.value
  | separator value, item => key value ≤ key item.value

theorem Item.Before.le {first second : Item κ} (before : first.Before key second) :
    key first.value ≤ key second.value := by
  cases first with
  | record value => exact le_of_lt before
  | separator value => exact before

theorem Item.before_of_lt {first second : Item κ} (below : key first.value < key second.value) :
    first.Before key second := by
  cases first with
  | record value => exact below
  | separator value => exact le_of_lt below

def InOrder (items : List (Item κ)) : Prop := items.Pairwise (Item.Before key)

/-- Every separator is above all keys of the child to its left and at most those of the child to
its right. -/
def Separated (inside : τ → List (Item κ)) : τ → List (κ × τ) → Prop
  | _, [] => True
  | child, (separator, right) :: rest =>
      (∀ item ∈ inside child, key item.value < key separator) ∧
      (∀ item ∈ inside right, key separator ≤ key item.value) ∧ Separated inside right rest

def SearchTree : (height : Nat) → Tree ν κ height → Prop
  | 0, leaf => (Leaf.records leaf).Pairwise fun left right => key left < key right
  | height + 1, branch =>
      (Branch.separators branch).Pairwise (fun left right => key left < key right) ∧
      Separated key (inorder height) (Branch.first branch) (Branch.rest branch) ∧
      ∀ child ∈ Branch.children branch, SearchTree height child

theorem Separated.above {inside : τ → List (Item κ)} (name : ν) {child : τ}
    {rest : List (κ × τ)} {bound : ι}
    (separated : Separated key inside child rest)
    (lower : ∀ item ∈ inside child, bound ≤ key item.value)
    (separators : ∀ pair ∈ rest, bound ≤ key pair.1) :
    ∀ item ∈ (Branch.mk name child rest).interleave inside, bound ≤ key item.value := by
  induction rest generalizing child with
  | nil => simpa [Branch.interleave] using lower
  | cons pair rest ih =>
      obtain ⟨separator, right⟩ := pair
      obtain ⟨_, upper, tail⟩ := separated
      have start : bound ≤ key separator := separators (separator, right) (by simp)
      have later := ih tail (fun item member => le_trans start (upper item member))
        (fun pair member => separators pair (by simp [member]))
      simp only [Branch.interleave, List.flatMap_cons, List.cons_append, List.mem_append,
        List.mem_cons] at later ⊢
      rintro item (member | rfl | member)
      · exact lower item member
      · exact start
      · exact later item member

theorem interleave_inOrder {inside : τ → List (Item κ)} {name : ν} {child : τ}
    {rest : List (κ × τ)}
    (strict : (rest.map Prod.fst).Pairwise fun left right => key left < key right)
    (separated : Separated key inside child rest)
    (sorted : ∀ inner ∈ (Branch.mk name child rest).children, InOrder key (inside inner)) :
    InOrder key ((Branch.mk name child rest).interleave inside) := by
  induction rest generalizing child with
  | nil => simpa [Branch.interleave] using sorted child (by simp [Branch.children])
  | cons pair rest ih =>
      obtain ⟨separator, right⟩ := pair
      obtain ⟨lower, upper, tail⟩ := separated
      simp only [List.map_cons, List.pairwise_cons, List.mem_map] at strict
      have later : InOrder key ((Branch.mk name right rest).interleave inside) :=
        ih strict.2 tail fun inner member =>
          sorted inner (by simp only [Branch.children, List.map_cons] at member ⊢
                           exact List.mem_cons_of_mem _ member)
      have above := tail.above key name upper
        (fun pair member => le_of_lt (strict.1 pair.1 ⟨pair, member, rfl⟩))
      have split : (Branch.mk name child ((separator, right) :: rest)).interleave inside =
          inside child ++ .separator separator :: (Branch.mk name right rest).interleave inside := by
        simp [Branch.interleave]
      rw [split, InOrder, List.pairwise_append, List.pairwise_cons]
      refine ⟨sorted child (by simp [Branch.children]), ⟨above, later⟩, ?_⟩
      intro left leftMember item member
      apply Item.before_of_lt
      rcases List.mem_cons.mp member with rfl | member
      · exact lower left leftMember
      · exact lt_of_lt_of_le (lower left leftMember) (above item member)

theorem SearchTree.inOrder {height : Nat} {tree : Tree ν κ height}
    (search : SearchTree key height tree) : InOrder key (inorder height tree) := by
  induction height with
  | zero => simpa [InOrder, inorder, List.pairwise_map, Item.Before, SearchTree] using search
  | succ height ih =>
      obtain ⟨strict, separated, children⟩ := search
      exact interleave_inOrder key strict separated fun child member =>
        ih (children child member)

theorem Separated.above_some {inside : τ → List (Item κ)} {child : τ} {rest : List (κ × τ)}
    (separated : Separated key inside child rest)
    (filled : ∀ inner ∈ child :: rest.map Prod.snd, inside inner ≠ []) :
    ∀ pair ∈ rest, ∃ value, key value < key pair.1 := by
  induction rest generalizing child with
  | nil => simp
  | cons next rest ih =>
      obtain ⟨separator, right⟩ := next
      obtain ⟨lower, _, later⟩ := separated
      intro pair member
      rcases List.mem_cons.mp member with rfl | member
      · obtain ⟨item, inner⟩ := List.exists_mem_of_ne_nil _ (filled child List.mem_cons_self)
        exact ⟨item.value, lower item inner⟩
      · exact ih later (fun inner listed => filled inner (List.mem_cons_of_mem _ listed)) pair member

def Populated (height : Nat) (tree : Tree ν κ height) : Prop :=
  ∀ leaf ∈ leaves height tree, leaf.records ≠ []

theorem Populated.child {height : Nat} {branch : Tree ν κ (height + 1)}
    (populated : Populated (height + 1) branch) :
    ∀ child ∈ Branch.children branch, Populated height child :=
  fun child member leaf inside =>
    populated leaf (List.mem_flatMap.mpr ⟨child, member, inside⟩)

theorem Populated.of_children {height : Nat} {branch : Tree ν κ (height + 1)}
    (children : ∀ child ∈ Branch.children branch, Populated height child) :
    Populated (height + 1) branch := by
  intro leaf member
  obtain ⟨child, childMember, inside⟩ := List.mem_flatMap.mp member
  exact children child childMember leaf inside

theorem Populated.last_record {height : Nat} {tree : Tree ν κ height}
    (populated : Populated height tree) :
    ∃ items value, inorder height tree = items ++ [.record value] := by
  induction height with
  | zero =>
      obtain ⟨items, value, same⟩ := (List.eq_nil_or_concat (Leaf.records tree)).resolve_left
        (populated tree (by simp [leaves]))
      exact ⟨items.map .record, value, by simp [inorder, same]⟩
  | succ height ih =>
      obtain ⟨name, first, rest⟩ := tree
      have children := fun child member => ih (populated.child child member)
      rcases List.eq_nil_or_concat rest with rfl | ⟨front, pair, rfl⟩
      · simpa [inorder, Branch.interleave] using children first (by simp [Branch.children])
      · obtain ⟨items, value, same⟩ := children pair.2 (by simp [Branch.children])
        refine ⟨inorder height first ++ front.flatMap (fun pair =>
          .separator pair.1 :: inorder height pair.2) ++ .separator pair.1 :: items, value, ?_⟩
        simp [inorder, Branch.interleave, same]

theorem SearchTree.separator_above {height : Nat} {tree : Tree ν κ height}
    (search : SearchTree key height tree) (populated : Populated height tree) :
    ∀ separator ∈ separators height tree, ∃ value, key value < key separator := by
  induction height with
  | zero => simp [separators]
  | succ height ih =>
      obtain ⟨_, separated, children⟩ := search
      have filled : ∀ inner ∈ Branch.children tree, inorder height inner ≠ [] := by
        intro inner member
        obtain ⟨items, value, same⟩ := (populated.child inner member).last_record
        simp [same]
      intro separator member
      rcases List.mem_append.mp member with member | member
      · obtain ⟨pair, listed, rfl⟩ := List.mem_map.mp member
        exact separated.above_some key filled pair listed
      · obtain ⟨child, listed, inside⟩ := List.mem_flatMap.mp member
        exact ih (children child listed) (populated.child child listed) separator inside

theorem InOrder.below_last {items : List (Item κ)} {value : κ} {bound : ι}
    (sorted : InOrder key (items ++ [.record value])) (below : key value < bound) :
    ∀ item ∈ items ++ [.record value], key item.value < bound := by
  simp only [InOrder, List.pairwise_append, List.mem_singleton, forall_eq] at sorted
  simp only [List.mem_append, List.mem_singleton]
  rintro item (member | rfl)
  · exact lt_of_le_of_lt (sorted.2.2 item member).le below
  · exact below

theorem interleave_separated {inside : τ → List (Item κ)} {name : ν} {child : τ}
    {rest : List (κ × τ)}
    (sorted : InOrder key ((Branch.mk name child rest).interleave inside))
    (ends : ∀ inner ∈ (Branch.mk name child rest).children,
      ∃ items value, inside inner = items ++ [.record value]) :
    (rest.map Prod.fst).Pairwise (fun left right => key left < key right) ∧
      Separated key inside child rest := by
  induction rest generalizing child with
  | nil => simp [Separated]
  | cons pair rest ih =>
      obtain ⟨separator, right⟩ := pair
      have split : (Branch.mk name child ((separator, right) :: rest)).interleave inside =
          inside child ++ .separator separator :: (Branch.mk name right rest).interleave inside := by
        simp [Branch.interleave]
      rw [split, InOrder, List.pairwise_append, List.pairwise_cons] at sorted
      obtain ⟨childSorted, ⟨above, later⟩, across⟩ := sorted
      obtain ⟨strict, separated⟩ := ih later fun inner member =>
        ends inner (by simp only [Branch.children, List.map_cons] at member ⊢
                       exact List.mem_cons_of_mem _ member)
      obtain ⟨items, value, same⟩ := ends child (by simp [Branch.children])
      obtain ⟨rightItems, rightValue, rightSame⟩ := ends right (by simp [Branch.children])
      have inRight : ∀ item ∈ inside right,
          item ∈ (Branch.mk name right rest).interleave inside := by
        intro item member
        simp [Branch.interleave, member]
      have lower : ∀ item ∈ inside child, key item.value < key separator := by
        rw [same] at childSorted ⊢
        apply InOrder.below_last key childSorted
        exact across (.record value) (by simp [same]) (.separator separator) (by simp)
      refine ⟨?_, lower, fun item member => above item (inRight item member), separated⟩
      rw [List.map_cons, List.pairwise_cons]
      refine ⟨?_, strict⟩
      intro next member
      obtain ⟨pair, pairMember, rfl⟩ := List.mem_map.mp member
      have first : key separator ≤ key rightValue :=
        above (.record rightValue) (inRight _ (by simp [rightSame]))
      have second : key rightValue < key pair.1 := by
        have parts := later
        rw [Branch.interleave, List.pairwise_append] at parts
        apply parts.2.2 (.record rightValue) (by simp [rightSame]) (.separator pair.1)
        exact List.mem_flatMap.mpr ⟨pair, pairMember, by simp⟩
      exact lt_of_le_of_lt first second

theorem interleave_child_inOrder {inside : τ → List (Item κ)} {branch : Branch ν κ τ}
    (sorted : InOrder key (branch.interleave inside)) :
    ∀ child ∈ branch.children, InOrder key (inside child) := by
  intro child member
  rw [Branch.interleave, InOrder, List.pairwise_append, List.pairwise_flatMap] at sorted
  rcases List.mem_cons.mp member with rfl | member
  · exact sorted.1
  · obtain ⟨pair, pairMember, rfl⟩ := List.mem_map.mp member
    exact (List.pairwise_cons.mp (sorted.2.1.1 pair pairMember)).2

theorem InOrder.leaf_sorted {height : Nat} {tree : Tree ν κ height} {leaf : Leaf ν κ}
    (sorted : InOrder key (inorder height tree)) (member : leaf ∈ leaves height tree) :
    leaf.records.Pairwise fun left right => key left < key right := by
  induction height with
  | zero =>
      rw [List.mem_singleton.mp member]
      rwa [InOrder, inorder, List.pairwise_map] at sorted
  | succ height ih =>
      obtain ⟨child, childMember, inside⟩ := List.mem_flatMap.mp member
      exact ih (interleave_child_inOrder key sorted child childMember) inside

theorem SearchTree.leaf_sorted {height : Nat} {tree : Tree ν κ height} {leaf : Leaf ν κ}
    (search : SearchTree key height tree) (member : leaf ∈ leaves height tree) :
    leaf.records.Pairwise fun left right => key left < key right :=
  (search.inOrder key).leaf_sorted key member

theorem separators_sorted {inside : τ → List (Item κ)} {branch : Branch ν κ τ}
    (sorted : InOrder key (branch.interleave inside)) :
    branch.separators.Pairwise fun left right => key left ≤ key right := by
  rw [Branch.interleave, InOrder, List.pairwise_append, List.pairwise_flatMap] at sorted
  rw [Branch.separators, List.pairwise_map]
  exact sorted.2.1.2.imp fun across => across _ List.mem_cons_self _ List.mem_cons_self

theorem SearchTree.of_inOrder {height : Nat} {tree : Tree ν κ height}
    (sorted : InOrder key (inorder height tree)) (populated : Populated height tree) :
    SearchTree key height tree := by
  induction height with
  | zero => simpa [InOrder, inorder, List.pairwise_map, Item.Before, SearchTree] using sorted
  | succ height ih =>
      obtain ⟨strict, separated⟩ := interleave_separated key sorted fun child member =>
        (populated.child child member).last_record
      exact ⟨strict, separated, fun child member =>
        ih (interleave_child_inOrder key sorted child member) (populated.child child member)⟩

section Fill

/-- Bounds on the number of keys of every node; `least` is the lower bound of the root alone. -/
def Filled (least low high : Nat) : (height : Nat) → Tree ν κ height → Prop
  | 0, leaf => least ≤ (Leaf.records leaf).length ∧ (Leaf.records leaf).length ≤ high
  | height + 1, branch =>
      (least ≤ (Branch.rest branch).length ∧ (Branch.rest branch).length ≤ high) ∧
      ∀ child ∈ Branch.children branch, Filled low low high height child

theorem Filled.weaken {least less low high height : Nat} {tree : Tree ν κ height}
    (filled : Filled least low high height tree) (fewer : less ≤ least) :
    Filled less low high height tree := by
  cases height with
  | zero => exact ⟨le_trans fewer filled.1, filled.2⟩
  | succ height => exact ⟨⟨le_trans fewer filled.1.1, filled.1.2⟩, filled.2⟩

theorem Filled.leaf_le {least low high height : Nat} {tree : Tree ν κ height}
    (filled : Filled least low high height tree) :
    ∀ leaf ∈ leaves height tree, leaf.records.length ≤ high := by
  induction height generalizing least with
  | zero =>
      intro leaf member
      rw [List.mem_singleton.mp member]
      exact filled.2
  | succ height ih =>
      intro leaf member
      obtain ⟨child, childMember, inside⟩ := List.mem_flatMap.mp member
      exact ih (filled.2 child childMember) leaf inside

theorem Filled.populated {low high height : Nat} {tree : Tree ν κ height}
    (filled : Filled low low high height tree) (positive : 0 < low) : Populated height tree := by
  induction height with
  | zero =>
      intro leaf member empty
      obtain rfl : leaf = tree := by simpa [leaves] using member
      have lower := filled.1
      simp only [empty, List.length_nil] at lower
      omega
  | succ height ih => exact .of_children fun child member => ih (filled.2 child member)

end Fill

def Linked : List (Leaf ν κ) → ν → Prop
  | [], _ => True
  | leaf :: rest, stop => leaf.next = (rest.head?.map Leaf.label).getD stop ∧ Linked rest stop

theorem linked_append (front back : List (Leaf ν κ)) (stop : ν) :
    Linked (front ++ back) stop ↔
      Linked front ((back.head?.map Leaf.label).getD stop) ∧ Linked back stop := by
  induction front with
  | nil => simp [Linked]
  | cons leaf front ih =>
      rw [List.cons_append, Linked, Linked, ih]
      cases front <;> simp [and_assoc]

theorem SearchTree.of_filled {least low high height : Nat} {tree : Tree ν κ height}
    (sorted : InOrder key (inorder height tree)) (filled : Filled least low high height tree)
    (positive : 0 < low) : SearchTree key height tree := by
  cases height with
  | zero => simpa [InOrder, inorder, List.pairwise_map, Item.Before, SearchTree] using sorted
  | succ height =>
      exact .of_inOrder key sorted (.of_children fun child member =>
        (filled.2 child member).populated positive)

section Descent

/-- The child that a descent for `k` enters: the one right of the last separator at most `k`. -/
def pick (k : ι) : τ → List (κ × τ) → τ
  | child, [] => child
  | child, (separator, right) :: rest => if k < key separator then child else pick k right rest

def descend (k : ι) : (height : Nat) → Tree ν κ height → Leaf ν κ
  | 0, leaf => leaf
  | height + 1, branch => descend k height (pick key k (Branch.first branch) (Branch.rest branch))

theorem pick_mem (k : ι) (name : ν) (child : τ) (rest : List (κ × τ)) :
    pick key k child rest ∈ (Branch.mk name child rest).children := by
  induction rest generalizing child with
  | nil => simp [pick, Branch.children]
  | cons pair rest ih =>
      rw [pick]
      split
      · simp [Branch.children]
      · have later := ih pair.2
        simp only [Branch.children, List.map_cons] at later ⊢
        exact List.mem_cons_of_mem _ later

theorem descend_mem (k : ι) (height : Nat) (tree : Tree ν κ height) :
    descend key k height tree ∈ leaves height tree := by
  induction height with
  | zero => simp [descend, leaves]
  | succ height ih =>
      exact List.mem_flatMap.mpr ⟨_, pick_mem key k (Branch.label tree) _ _, ih _⟩

theorem exists_plug_pick (k : ι) (name : ν) (child : τ) (rest : List (κ × τ)) :
    ∃ before after, Branch.mk name child rest =
        Branch.plug name before (pick key k child rest) after ∧
      (∀ pair ∈ before, key pair.2 ≤ k) ∧ ∀ pair ∈ after.head?, k < key pair.1 := by
  induction rest generalizing child with
  | nil => exact ⟨[], [], rfl, by simp, by simp⟩
  | cons pair rest ih =>
      obtain ⟨separator, right⟩ := pair
      rw [pick]
      split_ifs with below
      · exact ⟨[], (separator, right) :: rest, rfl, by simp, by simpa using below⟩
      · obtain ⟨before, after, same, lower, upper⟩ := ih right
        refine ⟨(child, separator) :: before, after, ?_, ?_, upper⟩
        · rw [Branch.plug, ← same]
        · exact List.forall_mem_cons.mpr ⟨not_lt.mp below, lower⟩

theorem pick_plug {k : ι} (name : ν) {before : List (τ × κ)} (child : τ) {after : List (κ × τ)}
    (lower : ∀ pair ∈ before, key pair.2 ≤ k) (upper : ∀ pair ∈ after, k < key pair.1) :
    pick key k (Branch.plug name before child after).first
      (Branch.plug name before child after).rest = child := by
  induction before with
  | nil =>
      cases after with
      | nil => rfl
      | cons pair after => simp [Branch.plug, pick, upper pair (by simp)]
  | cons pair before ih =>
      have notBelow : ¬k < key pair.2 := not_lt.mpr (lower pair (by simp))
      simp only [Branch.plug, pick, notBelow, ↓reduceIte]
      exact ih fun other member => lower other (by simp [member])

theorem plug_record_bounds {inside : τ → List (Item κ)} {name : ν} {before : List (τ × κ)}
    {child : τ} {after : List (κ × τ)} {value : κ}
    (sorted : InOrder key ((Branch.plug name before child after).interleave inside))
    (member : Item.record value ∈ inside child) :
    (∀ pair ∈ before, key pair.2 ≤ key value) ∧ (∀ pair ∈ after, key value < key pair.1) := by
  rw [Branch.interleave_plug, InOrder, List.pairwise_append, List.pairwise_append] at sorted
  constructor
  · intro pair pairMember
    exact sorted.2.2 (.separator pair.2)
      (List.mem_flatMap.mpr ⟨pair, pairMember, by simp⟩) (.record value) (by simp [member])
  · intro pair pairMember
    exact sorted.2.1.2.2 (.record value) member (.separator pair.1)
      (List.mem_flatMap.mpr ⟨pair, pairMember, by simp⟩)

theorem leaves_descend {height : Nat} {tree : Tree ν κ height}
    (sorted : InOrder key (inorder height tree)) (k : ι) :
    ∃ before after, leaves height tree = before ++ descend key k height tree :: after ∧
      ∀ leaf ∈ before, ∀ value ∈ leaf.records, key value < k := by
  induction height with
  | zero => exact ⟨[], [], rfl, by simp⟩
  | succ height ih =>
      obtain ⟨front, back, same, lower, _⟩ :=
        exists_plug_pick key k (Branch.label tree) (Branch.first tree) (Branch.rest tree)
      obtain ⟨before, after, split, below⟩ := ih (interleave_child_inOrder key sorted _
        (pick_mem key k (Branch.label tree) (Branch.first tree) (Branch.rest tree)))
      refine ⟨(front.map Prod.fst).flatMap (leaves height) ++ before,
        after ++ (back.map Prod.snd).flatMap (leaves height), ?_, ?_⟩
      · have children := congrArg Branch.children same
        rw [Branch.plug_children] at children
        rw [leaves, descend]
        refine (congrArg (List.flatMap (leaves height)) children).trans ?_
        simp only [List.flatMap_append, List.flatMap_cons, split, List.append_assoc,
          List.cons_append]
      · intro leaf member value stored
        rcases List.mem_append.mp member with member | member
        · obtain ⟨child, childMember, inside⟩ := List.mem_flatMap.mp member
          obtain ⟨pair, pairMember, rfl⟩ := List.mem_map.mp childMember
          have listed : Item.record value ∈ inorder height pair.1 := by
            rw [← mem_records_iff]
            exact List.mem_flatMap.mpr ⟨leaf, inside, stored⟩
          have parts : InOrder key ((Branch.mk (Branch.label tree) (Branch.first tree)
            (Branch.rest tree)).interleave (inorder height)) := sorted
          rw [same, Branch.interleave_plug, InOrder, List.pairwise_append,
            List.pairwise_flatMap] at parts
          have inPair := List.pairwise_append.mp (parts.1.1 pair pairMember)
          have order : key value < key pair.2 :=
            inPair.2.2 _ listed (.separator pair.2) (List.mem_singleton_self _)
          exact order.trans_le (lower pair pairMember)
        · exact below leaf member value stored

theorem descend_eq_of_mem {height : Nat} {tree : Tree ν κ height} {leaf : Leaf ν κ} {value : κ}
    (sorted : InOrder key (inorder height tree)) (member : leaf ∈ leaves height tree)
    (stored : value ∈ leaf.records) : descend key (key value) height tree = leaf := by
  induction height with
  | zero => simpa [descend, leaves, eq_comm] using member
  | succ height ih =>
      obtain ⟨child, childMember, inside⟩ := List.mem_flatMap.mp member
      obtain ⟨before, after, same⟩ := Branch.exists_plug_of_mem childMember
      have listed : Item.record value ∈ inorder height child := by
        rw [← mem_records_iff]
        exact List.mem_flatMap.mpr ⟨leaf, inside, stored⟩
      have childSorted := interleave_child_inOrder key sorted child childMember
      rw [inorder, same] at sorted
      obtain ⟨lower, upper⟩ := plug_record_bounds key sorted listed
      rw [descend, same, pick_plug key _ child lower upper]
      exact ih childSorted inside

/-- Whether the descent for `k` passes a separator equal to `k`. -/
def MeetsSeparator (k : ι) : (height : Nat) → Tree ν κ height → Prop
  | 0, _ => False
  | height + 1, branch =>
      (∃ separator ∈ Branch.separators branch, key separator = k) ∨
      MeetsSeparator k height (pick key k (Branch.first branch) (Branch.rest branch))

theorem meetsSeparator_iff {height : Nat} {tree : Tree ν κ height} (k : ι)
    (sorted : InOrder key (inorder height tree)) :
    MeetsSeparator key k height tree ↔ ∃ separator ∈ separators height tree, key separator = k := by
  induction height with
  | zero => simp [MeetsSeparator, separators]
  | succ height ih =>
      have childSorted := interleave_child_inOrder key sorted
      rw [MeetsSeparator, separators]
      constructor
      · rintro (⟨separator, member, same⟩ | below)
        · exact ⟨separator, List.mem_append_left _ member, same⟩
        · have picked := pick_mem key k (Branch.label tree) (Branch.first tree) (Branch.rest tree)
          obtain ⟨separator, member, same⟩ := (ih (childSorted _ picked)).mp below
          exact ⟨separator, List.mem_append_right _
            (List.mem_flatMap.mpr ⟨_, picked, member⟩), same⟩
      · rintro ⟨separator, member, rfl⟩
        rcases List.mem_append.mp member with own | below
        · exact Or.inl ⟨separator, own, rfl⟩
        obtain ⟨child, childMember, inside⟩ := List.mem_flatMap.mp below
        obtain ⟨before, after, same⟩ := Branch.exists_plug_of_mem childMember
        by_cases equal : ∃ pair ∈ after, key pair.1 = key separator
        · obtain ⟨pair, pairMember, equal⟩ := equal
          refine Or.inl ⟨pair.1, ?_, equal⟩
          rw [same, Branch.plug_separators]
          exact List.mem_append_right _ (List.mem_map.mpr ⟨pair, pairMember, rfl⟩)
        · refine Or.inr ?_
          have listed := (mem_separators_iff height child separator).mp inside
          have parts := sorted
          rw [inorder, same, Branch.interleave_plug, InOrder, List.pairwise_append,
            List.pairwise_append] at parts
          have lower : ∀ pair ∈ before, key pair.2 ≤ key separator := by
            intro pair pairMember
            exact parts.2.2 (.separator pair.2)
              (List.mem_flatMap.mpr ⟨pair, pairMember, by simp⟩) (.separator separator)
              (by simp [listed])
          have upper : ∀ pair ∈ after, key separator < key pair.1 := by
            intro pair pairMember
            refine lt_of_le_of_ne ?_ fun same => equal ⟨pair, pairMember, same.symm⟩
            exact parts.2.1.2.2 (.separator separator) listed (.separator pair.1)
              (List.mem_flatMap.mpr ⟨pair, pairMember, by simp⟩)
          rw [same, pick_plug key _ child lower upper]
          exact (ih (childSorted child childMember)).mpr ⟨separator, inside, rfl⟩

def Meets (k : ι) (height : Nat) (tree : Tree ν κ height) : Prop :=
  MeetsSeparator key k height tree ∨ ∃ value ∈ (descend key k height tree).records, key value = k

section Plug

variable {k : ι} {height : Nat} (name : ν) {before : List (Tree ν κ height × κ)}
  (child : Tree ν κ height) {after : List (κ × Tree ν κ height)}

theorem descend_plug (lower : ∀ pair ∈ before, key pair.2 < k)
    (upper : ∀ pair ∈ after, k < key pair.1) :
    descend key k (height + 1) (Branch.plug name before child after) =
      descend key k height child := by
  rw [descend, pick_plug key name child (fun pair member => le_of_lt (lower pair member)) upper]

theorem meetsSeparator_plug (lower : ∀ pair ∈ before, key pair.2 < k)
    (upper : ∀ pair ∈ after, k < key pair.1) :
    MeetsSeparator key k (height + 1) (Branch.plug name before child after) ↔
      MeetsSeparator key k height child := by
  have none : ¬∃ separator ∈ (Branch.plug name before child after).separators,
      key separator = k := by
    rintro ⟨separator, member, same⟩
    rw [Branch.plug_separators, List.mem_append, List.mem_map, List.mem_map] at member
    rcases member with ⟨pair, member, rfl⟩ | ⟨pair, member, rfl⟩
    · exact ne_of_lt (lower pair member) same
    · exact ne_of_gt (upper pair member) same
  rw [MeetsSeparator,
    pick_plug key name child (fun pair member => le_of_lt (lower pair member)) upper]
  simp only [none, false_or]

theorem meets_plug (lower : ∀ pair ∈ before, key pair.2 < k)
    (upper : ∀ pair ∈ after, k < key pair.1) :
    Meets key k (height + 1) (Branch.plug name before child after) ↔ Meets key k height child := by
  rw [Meets, Meets, meetsSeparator_plug key name child lower upper,
    descend_plug key name child lower upper]

end Plug

theorem meets_of_mem {height : Nat} {tree : Tree ν κ height} {value : κ}
    (sorted : InOrder key (inorder height tree)) (stored : value ∈ records height tree) :
    Meets key (key value) height tree := by
  obtain ⟨leaf, member, inside⟩ := List.mem_flatMap.mp stored
  exact Or.inr ⟨value, by rwa [descend_eq_of_mem key sorted member inside], rfl⟩

end Descent

end PagedTree
