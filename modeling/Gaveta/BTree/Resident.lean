import Gaveta.BTree.Insert
import Gaveta.Library.Interruption
import Mathlib.Logic.Function.Basic
import Mathlib.Data.List.Nodup

/-!
The storage that the properties of the tree operations assume: every node stays in memory, a load
returns the current node with the record number, a node pointer is that number.  Writes may fail.
-/

namespace Gaveta

open PagedTree

structure Resident where
  nodes : Rrn → Option BtreeNode
  freeRrn : List Rrn
  created : List Rrn
  ioFails : Nat → Bool
  writes : Nat
  tombstones : List Rrn

namespace Resident

def read (s : Resident) (rrn : Rrn) : BtreeNode :=
  (s.nodes rrn).getD
    { keys := [], rrn := rrn, children := [], nextLeaf := noRrn, leaf := true }

@[simps] def store (s : Resident) (rrn : Rrn) (node : BtreeNode) : Resident :=
  { s with nodes := Function.update s.nodes rrn (some node) }

@[simps] def drop (s : Resident) (rrn : Rrn) : Resident :=
  { s with nodes := Function.update s.nodes rrn none }

@[simps] def take (s : Resident) : Resident :=
  { s with
    freeRrn := (getFreeRrn s.freeRrn).2
    created := s.created ++ [(getFreeRrn s.freeRrn).1] }

@[simps] def wrote (s : Resident) : Resident := { s with writes := s.writes + 1 }

end Resident

def residentPager : Pager Resident Rrn where
  node := Resident.read
  setNode := Resident.store
  allocBtreeNode s node := (s.store node.rrn node, node.rrn)
  clearBtreeNode := Resident.drop
  cached _ _ := true
  loadBtreeNode _ s rrn := (s, if (s.nodes rrn).isSome then some rrn else none)
  writeIndexRecord _ s _ := (s.wrote, if s.ioFails s.writes then .errorIo else .success)
  getFreeRrn s := (s.take, (getFreeRrn s.freeRrn).1)
  insertFreeRrn s rrn := { s with freeRrn := rrn :: s.freeRrn }
  writeTombstone s rrn := ({ s with tombstones := rrn :: s.tombstones }, true)

section Pager

variable (s : Resident) (p : Rrn) (node : BtreeNode) (held : List Rrn)

@[simp] theorem residentPager_node : residentPager.node s p = s.read p := rfl

@[simp] theorem residentPager_setNode : residentPager.setNode s p node = s.store p node := rfl

@[simp] theorem residentPager_alloc :
    residentPager.allocBtreeNode s node = (s.store node.rrn node, node.rrn) := rfl

@[simp] theorem residentPager_clear : residentPager.clearBtreeNode s p = s.drop p := rfl

@[simp] theorem residentPager_cached : residentPager.cached s p = true := rfl

@[simp] theorem residentPager_load :
    residentPager.loadBtreeNode held s p = (s, if (s.nodes p).isSome then some p else none) := rfl

@[simp] theorem residentPager_write :
    residentPager.writeIndexRecord held s p =
      (s.wrote, if s.ioFails s.writes then .errorIo else .success) := rfl

@[simp] theorem residentPager_getFreeRrn :
    residentPager.getFreeRrn s = (s.take, (getFreeRrn s.freeRrn).1) := rfl

@[simp] theorem residentPager_insertFreeRrn :
    residentPager.insertFreeRrn s p = { s with freeRrn := p :: s.freeRrn } := rfl

@[simp] theorem residentPager_tombstone :
    residentPager.writeTombstone s p = ({ s with tombstones := p :: s.tombstones }, true) := rfl

@[simp] theorem dropUncached_resident (root : Option Rrn) :
    dropUncached residentPager root s p = s := by
  simp [dropUncached]

@[simp] theorem read_take : s.take.read = s.read := rfl

@[simp] theorem read_wrote : s.wrote.read = s.read := rfl

@[simp] theorem read_store (other : Rrn) :
    (s.store p node).read other = if other = p then node else s.read other := by
  by_cases same : other = p
  · simp [Resident.read, same]
  · simp [Resident.read, same]

end Pager

/-- What an operation on the nodes `inside` leaves as it was, apart from the nodes `fresh` that it
creates. -/
structure Changes (before after : Resident) (inside fresh : List Rrn) : Prop where
  nodes : ∀ rrn, rrn ∉ inside → rrn ∉ fresh → after.nodes rrn = before.nodes rrn
  created : after.created = before.created ++ fresh
  ioFails : after.ioFails = before.ioFails

theorem Changes.refl (s : Resident) (inside : List Rrn) : Changes s s inside [] :=
  ⟨fun _ _ _ => rfl, by simp, rfl⟩

theorem Changes.weaken {before after : Resident} {inside larger fresh : List Rrn}
    (changes : Changes before after inside fresh) (subset : ∀ rrn ∈ inside, rrn ∈ larger) :
    Changes before after larger fresh :=
  ⟨fun rrn outside => changes.nodes rrn fun member => outside (subset rrn member),
    changes.created, changes.ioFails⟩

theorem Changes.trans {before middle after : Resident} {inside fresh more : List Rrn}
    (first : Changes before middle inside fresh)
    (second : Changes middle after (inside ++ fresh) more) :
    Changes before after inside (fresh ++ more) := by
  constructor
  · intro rrn outside new
    simp only [List.mem_append, not_or] at new
    rw [second.nodes rrn (by simp [outside, new.1]) new.2, first.nodes rrn outside new.1]
  · rw [second.created, first.created, List.append_assoc]
  · rw [second.ioFails, first.ioFails]

def leafNode (leaf : Leaf Rrn Key) : BtreeNode :=
  { keys := leaf.records, rrn := leaf.label, children := [], nextLeaf := leaf.next, leaf := true }

def branchNode {height : Nat} (next : Rrn) (branch : Branch Rrn Key (Tree Rrn Key height)) :
    BtreeNode :=
  { keys := branch.separators, rrn := branch.label, children := branch.children.map (label height),
    nextLeaf := next, leaf := false }

/-- The nodes reachable from the root of `tree` are exactly its nodes.  Heights agree and a branch
has one child more than keys by the shape of `Tree`. -/
def Represents (nodes : Rrn → Option BtreeNode) :
    (height : Nat) → Tree Rrn Key height → Prop
  | 0, leaf => nodes (Leaf.label leaf) = some (leafNode leaf)
  | height + 1, branch =>
      (∃ next, nodes (Branch.label branch) = some (branchNode next branch)) ∧
      ∀ child ∈ Branch.children branch, Represents nodes height child

theorem Represents.frame {nodes changed : Rrn → Option BtreeNode} {height : Nat}
    {tree : Tree Rrn Key height} (represents : Represents nodes height tree)
    (same : ∀ rrn ∈ labels height tree, changed rrn = nodes rrn) :
    Represents changed height tree := by
  induction height with
  | zero => exact (same _ (label_mem_labels 0 tree)).trans represents
  | succ height ih =>
      obtain ⟨⟨next, found⟩, children⟩ := represents
      refine ⟨⟨next, (same _ (label_mem_labels (height + 1) tree)).trans found⟩, ?_⟩
      intro child member
      refine ih (children child member) fun rrn inside => same rrn ?_
      exact List.mem_cons_of_mem _ (List.mem_flatMap.mpr ⟨child, member, inside⟩)

theorem Represents.isSome {nodes : Rrn → Option BtreeNode} {height : Nat}
    {tree : Tree Rrn Key height} (represents : Represents nodes height tree) :
    (nodes (label height tree)).isSome := by
  cases height with
  | zero =>
      have found : nodes (Leaf.label tree) = some (leafNode tree) := represents
      simp only [label, found, Option.isSome_some]
  | succ height =>
      obtain ⟨⟨next, found⟩, _⟩ := represents
      simp only [label, found, Option.isSome_some]

theorem Represents.leaf {s : Resident} {tree : Leaf Rrn Key}
    (represents : Represents s.nodes 0 tree) : s.read tree.label = leafNode tree := by
  have found : s.nodes tree.label = some (leafNode tree) := represents
  simp only [Resident.read, found, Option.getD_some]

theorem Represents.branch {s : Resident} {height : Nat}
    {tree : Branch Rrn Key (Tree Rrn Key height)}
    (represents : Represents s.nodes (height + 1) tree) :
    ∃ next, s.read tree.label = branchNode next tree := by
  obtain ⟨⟨next, found⟩, _⟩ := represents
  exact ⟨next, by simp only [Resident.read, found, Option.getD_some]⟩

theorem Represents.rrn {s : Resident} {height : Nat} {tree : Tree Rrn Key height}
    (represents : Represents s.nodes height tree) :
    (s.read (label height tree)).rrn = label height tree := by
  cases height with
  | zero => rw [label, represents.leaf, leafNode]
  | succ height =>
      obtain ⟨next, read⟩ := represents.branch
      rw [label, read, branchNode]

theorem Represents.leaves {nodes : Rrn → Option BtreeNode} {height : Nat}
    {tree : Tree Rrn Key height} (represents : Represents nodes height tree) :
    ∀ leaf ∈ leaves height tree, Represents nodes 0 leaf := by
  induction height with
  | zero =>
      intro leaf member
      rwa [List.mem_singleton.mp member]
  | succ height ih =>
      intro leaf member
      obtain ⟨child, childMember, inside⟩ := List.mem_flatMap.mp member
      exact ih (represents.2 child childMember) leaf inside

theorem leafNode_injective {left right : Leaf Rrn Key} (same : leafNode left = leafNode right) :
    left = right := by
  obtain ⟨_, _, _⟩ := left
  obtain ⟨_, _, _⟩ := right
  simp only [leafNode, BtreeNode.mk.injEq] at same
  simp [same.1, same.2.1, same.2.2.2.1]

theorem pairs_unique {α β γ : Type} {name : β → γ} {pairs others : List (α × β)}
    (firsts : pairs.map Prod.fst = others.map Prod.fst)
    (names : pairs.map (name ∘ Prod.snd) = others.map (name ∘ Prod.snd))
    (unique : ∀ pair ∈ pairs, ∀ other ∈ others, name pair.2 = name other.2 → pair.2 = other.2) :
    pairs = others := by
  induction pairs generalizing others with
  | nil => exact (List.map_eq_nil_iff.mp firsts.symm).symm
  | cons pair pairs ih =>
      cases others with
      | nil => exact List.map_eq_nil_iff.mp firsts
      | cons other others =>
          simp only [List.map_cons, List.cons.injEq, Function.comp_apply] at firsts names
          rw [ih firsts.2 names.2 fun pair member other inside =>
            unique pair (by simp [member]) other (by simp [inside])]
          have second := unique pair (by simp) other (by simp) names.1
          rw [Prod.ext firsts.1 second]

theorem Represents.unique {nodes : Rrn → Option BtreeNode} {height other : Nat}
    {tree : Tree Rrn Key height} {otherTree : Tree Rrn Key other}
    (represents : Represents nodes height tree) (again : Represents nodes other otherTree)
    (same : label height tree = label other otherTree) :
    (⟨height, tree⟩ : Sigma (Tree Rrn Key)) = ⟨other, otherTree⟩ := by
  induction height generalizing other with
  | zero =>
      cases other with
      | zero =>
          have found : nodes (label 0 tree) = some (leafNode tree) := represents
          have foundAgain : nodes (label 0 otherTree) = some (leafNode otherTree) := again
          rw [same, foundAgain] at found
          rw [leafNode_injective (Option.some.inj found)]
      | succ other =>
          have found : nodes (label 0 tree) = some (leafNode tree) := represents
          obtain ⟨⟨next, foundAgain⟩, _⟩ := again
          rw [same, label, foundAgain] at found
          simp [leafNode, branchNode] at found
  | succ height ih =>
      cases other with
      | zero =>
          have foundAgain : nodes (label 0 otherTree) = some (leafNode otherTree) := again
          obtain ⟨⟨next, found⟩, _⟩ := represents
          rw [← same, label, found] at foundAgain
          simp [leafNode, branchNode] at foundAgain
      | succ other =>
          obtain ⟨⟨next, found⟩, children⟩ := represents
          obtain ⟨⟨nextAgain, foundAgain⟩, childrenAgain⟩ := again
          obtain ⟨name, first, rest⟩ := tree
          obtain ⟨otherName, otherFirst, otherRest⟩ := otherTree
          simp only [label] at same
          subst same
          rw [foundAgain, Option.some.injEq] at found
          simp only [branchNode, BtreeNode.mk.injEq, Branch.separators, Branch.children,
            List.map_cons, List.map_map, List.cons.injEq] at found childrenAgain children
          have below := ih (children first (by simp)) (childrenAgain otherFirst (by simp))
            found.2.2.1.1.symm
          obtain rfl : height = other := congrArg Sigma.fst below
          obtain rfl : first = otherFirst := by simpa using below
          have rests : otherRest = rest := by
            refine pairs_unique found.1 found.2.2.1.2 fun pair member other inside same => ?_
            have equal := ih (children other.2 (by simp; exact Or.inr ⟨_, inside⟩))
              (childrenAgain pair.2 (by simp; exact Or.inr ⟨_, member⟩)) same.symm
            simpa using equal.symm
          rw [rests]

/-- A tree in the storage whose branches can be searched; `least` is the fill of its root. -/
structure Arranged (order least : Nat) (s : Resident) (height : Nat) (tree : Tree Rrn Key height) :
    Prop where
  represents : Represents s.nodes height tree
  inOrder : InOrder Key.id (inorder height tree)
  marked : ∀ key ∈ separators height tree, key.id.isEmpty = false
  filled : Filled least ((order - 1) / 2) (order - 1) height tree
  distinct : (labels height tree).Nodup

structure Stored (order least : Nat) (s : Resident) (height : Nat) (tree : Tree Rrn Key height) :
    Prop extends Arranged order least s height tree where
  named : ∀ key ∈ records height tree, key.id.isEmpty = false

structure Growable (order least : Nat) (s : Resident) (height : Nat) (tree : Tree Rrn Key height) :
    Prop extends Stored order least s height tree where
  created : ∀ rrn ∈ labels height tree, rrn ∈ s.created

namespace Arranged

variable {order least height : Nat} {s : Resident}

theorem child {tree : Tree Rrn Key (height + 1)} {child : Tree Rrn Key height}
    (stored : Arranged order least s (height + 1) tree) (member : child ∈ Branch.children tree) :
    Arranged order ((order - 1) / 2) s height child := by
  constructor
  · exact stored.represents.2 child member
  · exact interleave_child_inOrder Key.id stored.inOrder child member
  · exact fun key listed => stored.marked key
      (List.mem_append_right _ (List.mem_flatMap.mpr ⟨child, member, listed⟩))
  · exact stored.filled.2 child member
  · exact (List.nodup_flatMap.mp (List.nodup_cons.mp stored.distinct).2).1 child member

theorem leaf_search {tree : Tree Rrn Key 0} (stored : Arranged order least s 0 tree)
    (marked : ∀ key ∈ Leaf.records tree, key.id.isEmpty = false) (id : CString) :
    (∃ before key after, Leaf.records tree = before ++ key :: after ∧ key.id = id ∧
      searchInBtreeNode (s.read (label 0 tree)) id = (.foundKey, before.length)) ∨
    ∃ before after, Leaf.records tree = before ++ after ∧ (∀ key ∈ before, key.id < id) ∧
      (∀ key ∈ after, id < key.id) ∧
      searchInBtreeNode (s.read (label 0 tree)) id = (.notFoundKey, before.length) := by
  have sorted : (Leaf.records tree).Pairwise fun left right => left.id ≤ right.id := by
    have strict := stored.inOrder
    rw [InOrder, inorder, List.pairwise_map] at strict
    exact strict.imp le_of_lt
  have whole : searchInBtreeNode (s.read (label 0 tree)) id =
      searchFrom id (Leaf.records tree) 0 := by
    rw [label, stored.represents.leaf, searchInBtreeNode, leafNode]
  obtain ⟨before, after, split, lower, found⟩ := searchFrom_spec id (Leaf.records tree) 0 marked
  rw [whole]
  rcases found with ⟨key, rest, rfl, same, found⟩ | ⟨head, found⟩
  · exact Or.inl ⟨before, key, rest, split, same, by simpa using found⟩
  · refine Or.inr ⟨before, after, split, lower, ?_, by simpa using found⟩
    rw [split] at sorted
    exact pairwise_head_lt (List.pairwise_append.mp sorted).2.1 head

theorem branch_search {tree : Tree Rrn Key (height + 1)}
    (stored : Arranged order least s (height + 1) tree) (id : CString) :
    (∃ separator ∈ Branch.separators tree, separator.id = id ∧
      (searchInBtreeNode (s.read (label (height + 1) tree)) id).1 = .foundKey) ∨
    ∃ before child after, tree = Branch.plug (Branch.label tree) before child after ∧
      (∀ pair ∈ before, pair.2.id < id) ∧ (∀ pair ∈ after, id < pair.1.id) ∧
      searchInBtreeNode (s.read (label (height + 1) tree)) id = (.notFoundKey, before.length) := by
  have marked : ∀ key ∈ Branch.separators tree, key.id.isEmpty = false := fun key member =>
    stored.marked key (List.mem_append_left _ member)
  have whole : searchInBtreeNode (s.read (label (height + 1) tree)) id =
      searchFrom id (Branch.separators tree) 0 := by
    obtain ⟨next, read⟩ := stored.represents.branch
    rw [label, read, searchInBtreeNode, branchNode]
  obtain ⟨front, back, split, lower, found⟩ :=
    searchFrom_spec id (Branch.separators tree) 0 marked
  rw [whole]
  rcases found with ⟨key, rest, rfl, same, found⟩ | ⟨head, found⟩
  · exact Or.inl ⟨key, by simp [split], same, by rw [found]⟩
  · have counted := congrArg List.length split
    simp only [Branch.separators, List.length_map, List.length_append] at counted
    obtain ⟨before, child, after, plugged, length⟩ :=
      Branch.exists_plug tree front.length (by omega)
    have parts := split
    rw [plugged, Branch.plug_separators] at parts
    obtain ⟨rfl, rfl⟩ := List.append_inj parts (by simp [length])
    have sorted := separators_sorted Key.id stored.inOrder
    rw [split] at sorted
    have upper := pairwise_head_lt (List.pairwise_append.mp sorted).2.1 head
    refine Or.inr ⟨before, child, after, plugged, ?_, ?_, by simpa using found⟩
    · exact fun pair member => lower pair.2 (List.mem_map.mpr ⟨pair, member, rfl⟩)
    · exact fun pair member => upper pair.1 (List.mem_map.mpr ⟨pair, member, rfl⟩)

theorem enter {name : Rrn} {before : List (Tree Rrn Key height × Key)}
    {child : Tree Rrn Key height} {after : List (Key × Tree Rrn Key height)}
    (stored : Arranged order least s (height + 1) (Branch.plug name before child after)) :
    (s.read name).leaf = false ∧ (s.read name).child before.length = label height child ∧
      (s.nodes (label height child)).isSome := by
  obtain ⟨next, read⟩ := stored.represents.branch
  rw [Branch.plug_label] at read
  rw [read]
  exact ⟨rfl, by simp [BtreeNode.child, branchNode],
    (stored.represents.2 child (by simp)).isSome⟩

end Arranged

namespace Stored

variable {order least height : Nat} {s : Resident}

theorem child {tree : Tree Rrn Key (height + 1)} {child : Tree Rrn Key height}
    (stored : Stored order least s (height + 1) tree) (member : child ∈ Branch.children tree) :
    Stored order ((order - 1) / 2) s height child where
  toArranged := stored.toArranged.child member
  named := by
    intro key listed
    apply stored.named key
    rw [records_branch]
    exact List.mem_flatMap.mpr ⟨child, member, listed⟩

theorem leaf_search {tree : Tree Rrn Key 0} (stored : Stored order least s 0 tree)
    (id : CString) :
    (∃ before key after, Leaf.records tree = before ++ key :: after ∧ key.id = id ∧
      searchInBtreeNode (s.read (label 0 tree)) id = (.foundKey, before.length)) ∨
    ∃ before after, Leaf.records tree = before ++ after ∧ (∀ key ∈ before, key.id < id) ∧
      (∀ key ∈ after, id < key.id) ∧
      searchInBtreeNode (s.read (label 0 tree)) id = (.notFoundKey, before.length) :=
  stored.toArranged.leaf_search (fun key member => stored.named key (by rwa [records_leaf])) id

end Stored

theorem Growable.child {order least height : Nat} {s : Resident} {tree : Tree Rrn Key (height + 1)}
    {child : Tree Rrn Key height} (stored : Growable order least s (height + 1) tree)
    (member : child ∈ Branch.children tree) :
    Growable order ((order - 1) / 2) s height child :=
  ⟨stored.toStored.child member, fun rrn listed => stored.created rrn
    (List.mem_cons_of_mem _ (List.mem_flatMap.mpr ⟨child, member, listed⟩))⟩

end Gaveta
