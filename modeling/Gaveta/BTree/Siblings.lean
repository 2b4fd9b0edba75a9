import Gaveta.Library.LeafMap
import Gaveta.BTree.Remove
import Gaveta.BTree.InsertRun
import Gaveta.BTree.CacheCoherence

/-! What `find_parent` and `get_sibling` return in a tree whose nodes all load. -/

namespace Gaveta

open PagedTree

/-- The loads of these nodes succeed and leave the storage as it is; `holds` tells which pointers
are to which node. -/
structure InMemory {σ ρ : Type} (pager : Pager σ ρ) (s : σ) (nodes : Rrn → Option BtreeNode)
    (holds : ρ → Rrn → Prop) : Prop where
  content : ∀ q rrn, holds q rrn → nodes rrn = some (pager.node s q)
  load : ∀ rrn, (nodes rrn).isSome → ∃ q, holds q rrn ∧ pager.cached s q = true ∧
    ∀ held, pager.loadBtreeNode held s rrn = (s, some q)

structure Finds {σ ρ : Type} (s : σ) (holds : ρ → Rrn → Prop) (result : σ × Option ρ)
    (expected : Option Rrn) : Prop where
  unchanged : result.1 = s
  found : Option.Rel holds result.2 expected

theorem Represents.node {nodes : Rrn → Option BtreeNode} {height : Nat} {tree : Tree Rrn Key height}
    (represents : Represents nodes height tree) :
    ∃ node, nodes (label height tree) = some node ∧ node.rrn = label height tree := by
  cases height with
  | zero => exact ⟨leafNode tree, represents, rfl⟩
  | succ height =>
      obtain ⟨⟨next, found⟩, _⟩ := represents
      exact ⟨branchNode next tree, found, rfl⟩

theorem branches_node {nodes : Rrn → Option BtreeNode} {height : Nat} {tree : Tree Rrn Key height}
    {name : Rrn} {names : List Rrn} (represents : Represents nodes height tree)
    (member : (name, names) ∈ branches height tree) :
    ∃ node, nodes name = some node ∧ node.children = names ∧
      ∀ child ∈ names, (nodes child).isSome := by
  induction height with
  | zero => cases member
  | succ height ih =>
      obtain ⟨⟨next, found⟩, below⟩ := represents
      rcases List.mem_cons.mp member with same | deeper
      · cases same
        refine ⟨branchNode next tree, found, rfl, fun child childMember => ?_⟩
        obtain ⟨subtree, inside, rfl⟩ := List.mem_map.mp childMember
        exact (below subtree inside).isSome
      · obtain ⟨subtree, inside, deeper⟩ := List.mem_flatMap.mp deeper
        exact ih (below subtree inside) deeper

theorem node_branches {nodes : Rrn → Option BtreeNode} {height : Nat} {tree : Tree Rrn Key height}
    {name p : Rrn} {node : BtreeNode} (represents : Represents nodes height tree)
    (member : name ∈ labels height tree) (found : nodes name = some node)
    (child : p ∈ node.children) : (name, node.children) ∈ branches height tree := by
  induction height with
  | zero =>
      obtain rfl := List.mem_singleton.mp member
      have leaf : nodes (Leaf.label tree) = some (leafNode tree) := represents
      cases found.symm.trans leaf
      cases child
  | succ height ih =>
      obtain ⟨⟨next, own⟩, below⟩ := represents
      rcases List.mem_cons.mp member with rfl | deeper
      · cases found.symm.trans own
        exact List.mem_cons_self
      · obtain ⟨subtree, inside, deeper⟩ := List.mem_flatMap.mp deeper
        exact List.mem_cons_of_mem _
          (List.mem_flatMap.mpr ⟨subtree, inside, ih (below subtree inside) deeper⟩)

section Storage

variable {σ ρ : Type} {pager : Pager σ ρ} {s : σ} {nodes : Rrn → Option BtreeNode} {height : Nat}
  {tree : Tree Rrn Key height} {holds : ρ → Rrn → Prop} {root p : ρ}

theorem InMemory.finds {rrn : Rrn} (inMemory : InMemory pager s nodes holds)
    (present : (nodes rrn).isSome) (held : List ρ) :
    Finds s holds (pager.loadBtreeNode held s rrn) (some rrn) := by
  obtain ⟨q, points, _, loads⟩ := inMemory.load rrn present
  rw [loads]
  exact ⟨rfl, .some points⟩

theorem findBelow_finds {load : σ → Rrn → σ × Option ρ} {find : σ → ρ → σ × Option ρ}
    {drop : σ → ρ → σ} {target : Rrn} {children : List (Tree Rrn Key height)}
    (each : ∀ child ∈ children, ∃ q, load s (label height child) = (s, some q) ∧ drop s q = s ∧
      Finds s holds (find s q) ((parentOf target height child).map Prod.fst)) :
    Finds s holds (findBelow load find drop s (children.map (label height)))
      ((children.findSome? (parentOf target height)).map Prod.fst) := by
  induction children with
  | nil => exact ⟨rfl, .none⟩
  | cons child children ih =>
      have rest := ih fun other member => each other (List.mem_cons_of_mem _ member)
      obtain ⟨q, loads, drops, unchanged, found⟩ := each child List.mem_cons_self
      rw [List.map_cons, findBelow, loads]
      dsimp only
      rw [unchanged, drops, List.findSome?_cons]
      generalize (find s q).2 = result at found ⊢
      generalize parentOf target height child = family at found ⊢
      cases family with
      | none =>
          cases found
          exact rest
      | some family =>
          cases found with
          | some points => exact ⟨rfl, .some points⟩

variable [DecidableEq ρ]

theorem dropUncached_cached {top : Option ρ} {q : ρ} (cached : pager.cached s q = true) :
    dropUncached pager top s q = s := by
  simp [dropUncached, cached]

/-- The search goes through the tree as `parentOf` does, and releases nothing on its way. -/
theorem findParent_finds {fuel : Nat} {q : ρ} (held : List ρ)
    (inMemory : InMemory pager s nodes holds) (represents : Represents nodes height tree)
    (points : holds q (label height tree)) (other : p ≠ root)
    (deep : height < fuel) :
    Finds s holds (findParent pager root fuel held s q p)
      ((parentOf (pager.node s p).rrn height tree).map Prod.fst) := by
  induction height generalizing fuel held q with
  | zero =>
      obtain ⟨fuel, rfl⟩ : ∃ rest, fuel = rest + 1 := ⟨fuel - 1, by omega⟩
      have stored : nodes (Leaf.label tree) = some (leafNode tree) := represents
      have leaf : pager.node s q = leafNode tree :=
        Option.some.inj ((inMemory.content _ _ points).symm.trans stored)
      have stops : findParent pager root (fuel + 1) held s q p = (s, none) := by
        simp [findParent, other, leaf, leafNode]
      rw [stops]
      exact ⟨rfl, .none⟩
  | succ height ih =>
      obtain ⟨fuel, rfl⟩ : ∃ rest, fuel = rest + 1 := ⟨fuel - 1, by omega⟩
      obtain ⟨⟨next, stored⟩, below⟩ := represents
      have branch : pager.node s q = branchNode next tree :=
        Option.some.inj ((inMemory.content _ _ points).symm.trans stored)
      have children : (pager.node s q).children = (Branch.children tree).map (label height) := by
        rw [branch, branchNode]
      have notLeaf : (pager.node s q).leaf = false := by
        rw [branch, branchNode]
      rw [findParent, if_neg other, parentOf]
      simp only [children, notLeaf, Bool.false_eq_true, ↓reduceIte]
      split_ifs with here
      · exact ⟨rfl, .some points⟩
      · refine findBelow_finds fun child member => ?_
        obtain ⟨loaded, points, cached, loads⟩ := inMemory.load _ (below child member).isSome
        refine ⟨loaded, loads _, dropUncached_cached cached, ?_⟩
        exact ih _ (below child member) points (by omega)

theorem getSibling_finds {name : Rrn} {before after : List Rrn}
    (inMemory : InMemory pager s nodes holds) (represents : Represents nodes height tree)
    (top : holds root (label height tree)) (other : p ≠ root)
    (deep : height < depthLimit)
    (found : parentOf (pager.node s p).rrn height tree =
      some (name, before ++ (pager.node s p).rrn :: after))
    (outside : (pager.node s p).rrn ∉ before) :
    Finds s holds (getSibling pager root s p true) before.getLast? ∧
      Finds s holds (getSibling pager root s p false) after.head? := by
  have searched := findParent_finds [p] inMemory represents top other deep
  rw [found] at searched
  obtain ⟨node, stored, children, present⟩ := branches_node represents (mem_branches found)
  rw [getSibling, getSibling]
  generalize findParent pager root depthLimit [p] s root p = result at searched ⊢
  obtain ⟨state, parent⟩ := result
  obtain ⟨rfl, points⟩ := searched
  cases points with
  | @some q _ points =>
      have names : (pager.node state q).children =
          before ++ (pager.node state p).rrn :: after := by
        rw [← children, Option.some.inj ((inMemory.content _ _ points).symm.trans stored)]
      have position : (before ++ (pager.node state p).rrn :: after).idxOf (pager.node state p).rrn =
          before.length := by
        rw [List.idxOf_append_of_notMem outside, List.idxOf_cons_self, Nat.add_zero]
      dsimp only
      rw [names, position]
      constructor
      · rcases List.eq_nil_or_concat before with rfl | ⟨front, last, rfl⟩
        · simpa using ⟨rfl, .none⟩
        · have finds := inMemory.finds (present last (by simp)) [q, p, root]
          simpa [BtreeNode.child, names] using finds
      · cases after with
        | nil => simpa [BtreeNode.childNum, names] using ⟨rfl, .none⟩
        | cons first rest =>
            have finds := inMemory.finds (present first (by simp)) [q, p, root]
            simpa [BtreeNode.childNum, BtreeNode.child, names] using finds

theorem getSibling_none (left : Bool)
    (searched : Finds s holds (findParent pager root depthLimit [p] s root p) none) :
    Finds s holds (getSibling pager root s p left) none := by
  rw [getSibling]
  generalize findParent pager root depthLimit [p] s root p = result at searched ⊢
  obtain ⟨state, parent⟩ := result
  obtain ⟨rfl, points⟩ := searched
  cases points
  exact ⟨rfl, .none⟩

/-- The number of the root is in no list of children, also when `p` is another object with it. -/
theorem findParent_root (inMemory : InMemory pager s nodes holds)
    (represents : Represents nodes height tree) (distinct : (labels height tree).Nodup)
    (top : holds root (label height tree))
    (isRoot : (pager.node s p).rrn = label height tree) :
    Finds s holds (findParent pager root depthLimit [p] s root p) none := by
  rcases eq_or_ne p root with rfl | other
  · have stops : findParent pager p (65535 + 1) [p] s p p = (s, none) := by
      rw [findParent, if_pos rfl]
    rw [depthLimit, stops]
    exact ⟨rfl, .none⟩
  · have searched :=
      findParent_finds [p] inMemory represents top other (height_lt_depthLimit distinct)
    rwa [isRoot, parentOf_label distinct] at searched

end Storage

structure OnlyParent (nodes : Rrn → Option BtreeNode) {height : Nat} (tree : Tree Rrn Key height)
    (p parent : Rrn) (before after : List Rrn) : Prop where
  member : parent ∈ labels height tree
  children : ∃ node, nodes parent = some node ∧ node.children = before ++ p :: after
  once : p ∉ before ++ after
  unique : ∀ other ∈ labels height tree, ∀ node, nodes other = some node → p ∈ node.children →
    other = parent

theorem exists_onlyParent {nodes : Rrn → Option BtreeNode} {height : Nat}
    {tree : Tree Rrn Key height} {p : Rrn} (represents : Represents nodes height tree)
    (distinct : (labels height tree).Nodup) (member : p ∈ labels height tree)
    (notRoot : p ≠ label height tree) :
    ∃ parent before after, OnlyParent nodes tree p parent before after ∧
      parentOf p height tree = some (parent, before ++ p :: after) := by
  have below : p ∈ (labels height tree).tail := by
    cases height with
    | zero => exact absurd (List.mem_singleton.mp member) notRoot
    | succ height => exact (List.mem_cons.mp member).resolve_left notRoot
  obtain ⟨parent, names, found⟩ := exists_parentOf below distinct
  obtain ⟨own, apart, _⟩ := parentOf_some found distinct
  obtain ⟨before, after, rfl⟩ := List.append_of_mem own
  have branch := mem_branches found
  obtain ⟨node, stored, children, _⟩ := branches_node represents branch
  refine ⟨parent, before, after, ?_, found⟩
  exact {
    member := mem_labels_of_branches branch
    children := ⟨node, stored, children⟩
    once := (List.nodup_middle.mp apart).notMem
    unique := by
      intro other inside content load child
      have another := parentOf_of_mem distinct (node_branches represents inside load child) child
      exact congrArg Prod.fst (Option.some.inj (another.symm.trans found)) }

def NodeCache.loaded (s : NodeCache) (rrn : Rrn) : Option BtreeNode :=
  let found := s.loadBtreeNode [] rrn
  found.2.map found.1.node

theorem inMemory_loaded {s : NodeCache} (notNull : nullPtr ∉ s.gq) :
    InMemory cachePager s s.loaded fun q rrn => s.loaded rrn = some (s.node q) := by
  refine ⟨fun q rrn points => points, fun rrn present => ?_⟩
  cases search : s.searchGq rrn with
  | none =>
      rw [NodeCache.loaded, NodeCache.loadBtreeNode, search] at present
      cases present
  | some q =>
      obtain ⟨member, own⟩ := NodeCache.searchGq_some search
      have notNullPtr : q ≠ nullPtr := fun null => notNull (null ▸ member)
      refine ⟨q, ?_, NodeCache.searchGq_isSome member, fun held => ?_⟩
      · rw [NodeCache.loaded, loadBtreeNode_found search notNullPtr]
        rfl
      · exact loadBtreeNode_found search notNullPtr

/-- `find_parent` returns the only parent of a node and `get_sibling` its neighbours there; the root
has none of them. -/
theorem sibling_lookup {σ ρ : Type} [DecidableEq ρ] {pager : Pager σ ρ} {s : σ}
    {nodes : Rrn → Option BtreeNode} {holds : ρ → Rrn → Prop} {height : Nat}
    {tree : Tree Rrn Key height} {root : ρ} (inMemory : InMemory pager s nodes holds)
    (represents : Represents nodes height tree) (distinct : (labels height tree).Nodup)
    (top : holds root (label height tree)) (p : ρ)
    (member : (pager.node s p).rrn ∈ labels height tree) :
    ((pager.node s p).rrn = label height tree →
      Finds s holds (findParent pager root depthLimit [p] s root p) none ∧
        ∀ left, Finds s holds (getSibling pager root s p left) none) ∧
    ((pager.node s p).rrn ≠ label height tree → ∃ parent before after,
      OnlyParent nodes tree (pager.node s p).rrn parent before after ∧
        Finds s holds (findParent pager root depthLimit [p] s root p) (some parent) ∧
        Finds s holds (getSibling pager root s p true) before.getLast? ∧
        Finds s holds (getSibling pager root s p false) after.head?) := by
  have deep := height_lt_depthLimit distinct
  constructor
  · intro isRoot
    have searched := findParent_root inMemory represents distinct top isRoot
    exact ⟨searched, fun left => getSibling_none left searched⟩
  · intro notRoot
    obtain ⟨parent, before, after, only, found⟩ :=
      exists_onlyParent represents distinct member notRoot
    have other : p ≠ root := by
      rintro rfl
      obtain ⟨node, stored, named⟩ := represents.node
      obtain rfl := Option.some.inj ((inMemory.content _ _ top).symm.trans stored)
      exact notRoot named
    have searched := findParent_finds [p] inMemory represents top other deep
    rw [found] at searched
    refine ⟨parent, before, after, only, searched, ?_⟩
    exact getSibling_finds inMemory represents top other deep found fun inside =>
      only.once (List.mem_append_left _ inside)

section Example

def leftLeaf : Leaf Rrn Key := ⟨1, [⟨singleId 97, 0⟩], 2⟩

def rightLeaf : Leaf Rrn Key := ⟨2, [⟨singleId 98, 1⟩], noRrn⟩

def twoLeafTree : Tree Rrn Key 1 := ⟨3, leftLeaf, [(⟨singleId 98, 1⟩, rightLeaf)]⟩

def twoLeafCache : NodeCache :=
  { initCache smallConfig [] (fun _ => false) with
    memory := fun p =>
      if p = 1 then some (leafNode leftLeaf)
      else if p = 2 then some (leafNode rightLeaf)
      else if p = 3 then some (branchNode noRrn twoLeafTree)
      else none
    gq := [1, 2, 3] }

theorem twoLeafTree_represents : Represents twoLeafCache.loaded 1 twoLeafTree := by
  refine ⟨⟨noRrn, by decide⟩, fun child member => ?_⟩
  have children : child = leftLeaf ∨ child = rightLeaf := by
    simpa [twoLeafTree, Branch.children] using member
  rcases children with rfl | rfl
  · have left : twoLeafCache.loaded leftLeaf.label = some (leafNode leftLeaf) := by decide
    exact left
  · have right : twoLeafCache.loaded rightLeaf.label = some (leafNode rightLeaf) := by decide
    exact right

theorem sibling_lookup_right_leaf :
    ∃ parent before after,
      OnlyParent twoLeafCache.loaded twoLeafTree 2 parent before after ∧
        Finds twoLeafCache (fun q rrn => twoLeafCache.loaded rrn = some (twoLeafCache.node q))
          (findParent cachePager 3 depthLimit [2] twoLeafCache 3 2) (some parent) ∧
        Finds twoLeafCache (fun q rrn => twoLeafCache.loaded rrn = some (twoLeafCache.node q))
          (getSibling cachePager 3 twoLeafCache 2 true) before.getLast? ∧
        Finds twoLeafCache (fun q rrn => twoLeafCache.loaded rrn = some (twoLeafCache.node q))
          (getSibling cachePager 3 twoLeafCache 2 false) after.head? :=
  (sibling_lookup (inMemory_loaded (by decide)) twoLeafTree_represents (by decide) (by decide) 2
    (by decide)).2 (by decide)

end Example

end Gaveta
