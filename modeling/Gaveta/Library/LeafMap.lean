import Gaveta.Library.SearchTree
import Mathlib.Data.List.Nodup
import Mathlib.Tactic.Common

/-!
Changes of a labelled search tree below its branches: every leaf gets other records under its old
label, and the leaves next to one another below one branch.
-/

namespace PagedTree

variable {ν κ τ ι : Type} [LinearOrder ι] (key : κ → ι)

def mapLeaves (f : Leaf ν κ → Leaf ν κ) : (height : Nat) → Tree ν κ height → Tree ν κ height
  | 0, leaf => f leaf
  | height + 1, branch =>
      Branch.mk (Branch.label branch) (mapLeaves f height (Branch.first branch))
        ((Branch.rest branch).map fun pair => (pair.1, mapLeaves f height pair.2))

section Map

variable {f g : Leaf ν κ → Leaf ν κ} {height : Nat}

theorem mapLeaves_children (tree : Tree ν κ (height + 1)) :
    (Branch.children (mapLeaves f (height + 1) tree)) =
      (Branch.children tree).map (mapLeaves f height) := by
  simp [mapLeaves, Branch.children, Function.comp_def]

theorem mapLeaves_separators (tree : Tree ν κ (height + 1)) :
    Branch.separators (mapLeaves f (height + 1) tree) = Branch.separators tree := by
  simp [mapLeaves, Branch.separators, Function.comp_def]

theorem leaves_mapLeaves (tree : Tree ν κ height) :
    leaves height (mapLeaves f height tree) = (leaves height tree).map f := by
  induction height with
  | zero => simp [leaves, mapLeaves]
  | succ height ih =>
      rw [leaves, mapLeaves_children, leaves, List.map_flatMap, List.flatMap_map]
      exact congrArg (fun inside => List.flatMap inside _) (funext ih)

theorem records_mapLeaves (tree : Tree ν κ height) :
    records height (mapLeaves f height tree) =
      (leaves height tree).flatMap fun leaf => (f leaf).records := by
  rw [records, leaves_mapLeaves, List.flatMap_map]

theorem mapLeaves_congr {tree : Tree ν κ height}
    (same : ∀ leaf ∈ leaves height tree, f leaf = g leaf) :
    mapLeaves f height tree = mapLeaves g height tree := by
  induction height with
  | zero => exact same tree (by simp [leaves])
  | succ height ih =>
      obtain ⟨name, first, rest⟩ := tree
      have children : ∀ child ∈ (Branch.mk name first rest).children,
          mapLeaves f height child = mapLeaves g height child := fun child member =>
        ih fun leaf inside => same leaf (List.mem_flatMap.mpr ⟨child, member, inside⟩)
      simp only [mapLeaves, Branch.mk.injEq, true_and]
      refine ⟨children first (by simp [Branch.children]), List.map_congr_left fun pair member => ?_⟩
      rw [children pair.2 (by simp [Branch.children]; exact Or.inr ⟨pair.1, member⟩)]

theorem label_mapLeaves (named : ∀ leaf, (f leaf).label = leaf.label) (tree : Tree ν κ height) :
    label height (mapLeaves f height tree) = label height tree := by
  cases height with
  | zero => exact named tree
  | succ height => rfl

theorem labels_mapLeaves (named : ∀ leaf, (f leaf).label = leaf.label) (tree : Tree ν κ height) :
    labels height (mapLeaves f height tree) = labels height tree := by
  induction height with
  | zero => simp [labels, mapLeaves, named]
  | succ height ih =>
      rw [labels, mapLeaves_children, labels, List.flatMap_map]
      exact congrArg (fun inside => _ :: List.flatMap inside _) (funext ih)

theorem pick_mapLeaves (k : ι) (child : Tree ν κ height) (rest : List (κ × Tree ν κ height)) :
    pick key k (mapLeaves f height child)
        (rest.map fun pair => (pair.1, mapLeaves f height pair.2)) =
      mapLeaves f height (pick key k child rest) := by
  induction rest generalizing child with
  | nil => rfl
  | cons pair rest ih =>
      simp only [List.map_cons, pick]
      split
      · rfl
      · exact ih pair.2

theorem descend_mapLeaves (k : ι) (tree : Tree ν κ height) :
    descend key k height (mapLeaves f height tree) = f (descend key k height tree) := by
  induction height with
  | zero => rfl
  | succ height ih =>
      rw [descend, descend, ← ih]
      exact congrArg _ (pick_mapLeaves key k _ _)

theorem inorder_mapLeaves (fewer : ∀ leaf, (f leaf).records.Sublist leaf.records)
    (tree : Tree ν κ height) :
    (inorder height (mapLeaves f height tree)).Sublist (inorder height tree) := by
  induction height with
  | zero => exact (fewer tree).map _
  | succ height ih =>
      obtain ⟨name, first, rest⟩ := tree
      refine (ih first).append ?_
      induction rest with
      | nil => exact List.Sublist.refl _
      | cons pair rest inner =>
          simp only [List.flatMap_cons]
          exact ((ih pair.2).cons_cons _).append inner

variable {key}

theorem Separated.mapLeaves {inside outside : τ → List (Item κ)} {g : τ → τ} {child : τ}
    {rest : List (κ × τ)} (separated : Separated key inside child rest)
    (fewer : ∀ child, ∀ item ∈ outside (g child), item ∈ inside child) :
    Separated key outside (g child) (rest.map fun pair => (pair.1, g pair.2)) := by
  induction rest generalizing child with
  | nil => trivial
  | cons pair rest ih =>
      obtain ⟨lower, upper, tail⟩ := separated
      exact ⟨fun item member => lower item (fewer child item member),
        fun item member => upper item (fewer pair.2 item member), ih tail⟩

theorem SearchTree.mapLeaves {tree : Tree ν κ height} (search : SearchTree key height tree)
    (fewer : ∀ leaf, (f leaf).records.Sublist leaf.records) :
    SearchTree key height (mapLeaves f height tree) := by
  induction height with
  | zero => exact List.Pairwise.sublist (fewer tree) search
  | succ height ih =>
      obtain ⟨strict, separated, children⟩ := search
      refine ⟨by rwa [mapLeaves_separators], ?_, ?_⟩
      · exact separated.mapLeaves fun child item member =>
          (inorder_mapLeaves fewer child).subset member
      · rw [mapLeaves_children]
        intro child member
        obtain ⟨old, oldMember, rfl⟩ := List.mem_map.mp member
        exact ih (children old oldMember)

theorem linked_map {chain : List (Leaf ν κ)} {stop : ν} (linked : Linked chain stop)
    (named : ∀ leaf, (f leaf).label = leaf.label) (next : ∀ leaf, (f leaf).next = leaf.next) :
    Linked (chain.map f) stop := by
  induction chain with
  | nil => trivial
  | cons leaf chain ih =>
      refine ⟨?_, ih linked.2⟩
      rw [next, linked.1]
      cases chain <;> simp [named]

end Map

section Siblings

def siblings (k : ι) : (height : Nat) → Tree ν κ height → Nat
  | 0, _ => 0
  | 1, branch => (Branch.rest branch).length
  | height + 2, branch =>
      siblings k (height + 1) (pick key k (Branch.first branch) (Branch.rest branch))

theorem siblings_mapLeaves (f : Leaf ν κ → Leaf ν κ) (k : ι) (height : Nat)
    (tree : Tree ν κ height) :
    siblings key k height (mapLeaves f height tree) = siblings key k height tree := by
  match height, tree with
  | 0, _ => rfl
  | 1, branch => simp [siblings, mapLeaves]
  | height + 2, branch =>
      have inner := siblings_mapLeaves f k (height + 1)
        (pick key k (Branch.first branch) (Branch.rest branch))
      rw [siblings, siblings, ← inner]
      exact congrArg _ (pick_mapLeaves key k _ _)

variable {height : Nat} {p name : ν} {names : List ν}

theorem leaf_label_mem {leaf : Leaf ν κ} {tree : Tree ν κ height}
    (member : leaf ∈ leaves height tree) : leaf.label ∈ labels height tree := by
  induction height with
  | zero => simp_all [leaves, labels]
  | succ height ih =>
      obtain ⟨child, childMember, inside⟩ := List.mem_flatMap.mp member
      exact List.mem_cons_of_mem _ (List.mem_flatMap.mpr ⟨child, childMember, ih inside⟩)

theorem length_leaves_le (tree : Tree ν κ height) :
    (leaves height tree).length ≤ (labels height tree).length := by
  induction height with
  | zero => exact le_rfl
  | succ height ih =>
      rw [leaves, labels, List.length_cons]
      refine le_trans ?_ (Nat.le_succ _)
      induction Branch.children tree with
      | nil => exact le_rfl
      | cons child children shorter =>
          rw [List.flatMap_cons, List.flatMap_cons, List.length_append, List.length_append]
          exact Nat.add_le_add (ih child) shorter

theorem leaf_label_tail {leaf : Leaf ν κ} {tree : Tree ν κ (height + 1)}
    (member : leaf ∈ leaves (height + 1) tree) : leaf.label ∈ (labels (height + 1) tree).tail := by
  obtain ⟨child, childMember, inside⟩ := List.mem_flatMap.mp member
  exact List.mem_flatMap.mpr ⟨child, childMember, leaf_label_mem inside⟩

theorem names_nodup {branch : Tree ν κ (height + 1)}
    (distinct : (labels (height + 1) branch).Nodup) :
    ((Branch.children branch).map (label height)).Nodup := by
  have inside := (List.nodup_flatMap.mp (List.nodup_cons.mp distinct).2).2
  rw [List.Nodup, List.pairwise_map]
  refine inside.imp fun {left right} apart same => ?_
  exact apart (label_mem_labels height left) (same ▸ label_mem_labels height right)

theorem below_not_child {name : ν} {before : List (Tree ν κ height × κ)} {child : Tree ν κ height}
    {after : List (κ × Tree ν κ height)}
    (distinct : (labels (height + 1) (Branch.plug name before child after)).Nodup)
    (below : p ∈ (labels height child).tail) :
    p ∉ (Branch.plug name before child after).children.map (label height) ∧
      ∀ other ∈ before.map Prod.fst, p ∉ labels height other := by
  rw [labels_plug, List.nodup_cons, List.nodup_append, List.nodup_append] at distinct
  obtain ⟨_, _, ⟨own, _, right⟩, left⟩ := distinct
  have inside := List.mem_of_mem_tail below
  have outside : ∀ other ∈ before.map Prod.fst, p ∉ labels height other := fun other member listed =>
    left p (List.mem_flatMap.mpr ⟨other, member, listed⟩) p (List.mem_append_left _ inside) rfl
  refine ⟨fun member => ?_, outside⟩
  obtain ⟨other, otherMember, rfl⟩ := List.mem_map.mp member
  rw [Branch.plug_children, List.mem_append, List.mem_cons] at otherMember
  rcases otherMember with front | rfl | back
  · exact outside other front (label_mem_labels height other)
  · cases height with
    | zero => simp [labels] at below
    | succ height => exact (List.nodup_cons.mp own).1 below
  · exact right _ inside _
      (List.mem_flatMap.mpr ⟨other, back, label_mem_labels height other⟩) rfl

variable [DecidableEq ν]

/-- The first branch with a child `p`: its label and those of its children. -/
def parentOf (p : ν) : (height : Nat) → Tree ν κ height → Option (ν × List ν)
  | 0, _ => none
  | height + 1, branch =>
      let names := (Branch.children branch).map (label height)
      if p ∈ names then some (Branch.label branch, names)
      else (Branch.children branch).findSome? (parentOf p height)

theorem parentOf_some {tree : Tree ν κ height} (found : parentOf p height tree = some (name, names))
    (distinct : (labels height tree).Nodup) :
    p ∈ names ∧ names.Nodup ∧ ∀ other ∈ names, other ∈ (labels height tree).tail := by
  induction height with
  | zero => cases found
  | succ height ih =>
      rw [parentOf] at found
      split_ifs at found with here
      · cases found
        refine ⟨here, names_nodup distinct, fun other member => ?_⟩
        obtain ⟨child, childMember, rfl⟩ := List.mem_map.mp member
        exact List.mem_flatMap.mpr ⟨child, childMember, label_mem_labels height child⟩
      · obtain ⟨child, childMember, inner⟩ := List.exists_of_findSome?_eq_some found
        have inside := (List.nodup_flatMap.mp (List.nodup_cons.mp distinct).2).1 child childMember
        obtain ⟨own, unique, below⟩ := ih inner inside
        refine ⟨own, unique, fun other member => ?_⟩
        exact List.mem_flatMap.mpr ⟨child, childMember, List.mem_of_mem_tail (below other member)⟩

theorem parentOf_none {tree : Tree ν κ height} (distinct : (labels height tree).Nodup)
    (outside : p ∉ labels height tree) : parentOf p height tree = none := by
  rw [Option.eq_none_iff_forall_ne_some]
  rintro ⟨name, names⟩ found
  obtain ⟨own, _, below⟩ := parentOf_some found distinct
  exact outside (List.mem_of_mem_tail (below p own))

theorem parentOf_label {tree : Tree ν κ height} (distinct : (labels height tree).Nodup) :
    parentOf (label height tree) height tree = none := by
  rw [Option.eq_none_iff_forall_ne_some]
  rintro ⟨name, names⟩ found
  obtain ⟨own, _, below⟩ := parentOf_some found distinct
  cases height with
  | zero => cases found
  | succ height => exact (List.nodup_cons.mp distinct).1 (below _ own)

theorem parentOf_child {tree : Tree ν κ (height + 1)} {child : Tree ν κ height}
    (distinct : (labels (height + 1) tree).Nodup) (member : child ∈ Branch.children tree)
    (found : parentOf p height child = some (name, names)) :
    parentOf p (height + 1) tree = some (name, names) := by
  obtain ⟨front, back, plugged⟩ := Branch.exists_plug_of_mem member
  have parts := List.nodup_flatMap.mp (List.nodup_cons.mp distinct).2
  obtain ⟨own, _, below⟩ := parentOf_some found (parts.1 child member)
  have skipped : (front.map Prod.fst).findSome? (parentOf p height) = none := by
    rw [List.findSome?_eq_none_iff]
    intro other before
    rw [plugged] at distinct
    have outside := (below_not_child distinct (below p own)).2 other before
    refine parentOf_none (parts.1 other ?_) outside
    rw [plugged, Branch.plug_children]
    exact List.mem_append_left _ before
  rw [plugged] at distinct ⊢
  rw [parentOf]
  simp only [(below_not_child distinct (below p own)).1, ↓reduceIte]
  rw [Branch.plug_children, List.findSome?_append, List.findSome?_cons, found, skipped]
  rfl

theorem exists_parentOf {tree : Tree ν κ height} (below : p ∈ (labels height tree).tail)
    (distinct : (labels height tree).Nodup) :
    ∃ name names, parentOf p height tree = some (name, names) := by
  induction height with
  | zero => cases below
  | succ height ih =>
      obtain ⟨child, member, inside⟩ := List.mem_flatMap.mp below
      by_cases here : p ∈ (Branch.children tree).map (label height)
      · exact ⟨_, _, by rw [parentOf, if_pos here]⟩
      · have deeper : p ∈ (labels height child).tail := by
          cases height with
          | zero =>
              obtain rfl := List.mem_singleton.mp inside
              exact absurd (List.mem_map_of_mem member) here
          | succ height =>
              refine (List.mem_cons.mp inside).resolve_left ?_
              rintro rfl
              exact here (List.mem_map_of_mem member)
        have apart := (List.nodup_flatMap.mp (List.nodup_cons.mp distinct).2).1 child member
        obtain ⟨name, names, found⟩ := ih deeper apart
        exact ⟨name, names, parentOf_child distinct member found⟩

def branches : (height : Nat) → Tree ν κ height → List (ν × List ν)
  | 0, _ => []
  | height + 1, branch =>
      (Branch.label branch, (Branch.children branch).map (label height)) ::
        (Branch.children branch).flatMap (branches height)

omit [DecidableEq ν] in
theorem mem_labels_of_branches {tree : Tree ν κ height}
    (member : (name, names) ∈ branches height tree) : name ∈ labels height tree := by
  induction height with
  | zero => cases member
  | succ height ih =>
      rcases List.mem_cons.mp member with same | deeper
      · cases same
        exact List.mem_cons_self
      · obtain ⟨child, childMember, inside⟩ := List.mem_flatMap.mp deeper
        exact List.mem_cons_of_mem _ (List.mem_flatMap.mpr ⟨child, childMember, ih inside⟩)

theorem parentOf_of_mem {tree : Tree ν κ height} (distinct : (labels height tree).Nodup)
    (member : (name, names) ∈ branches height tree) (child : p ∈ names) :
    parentOf p height tree = some (name, names) := by
  induction height with
  | zero => cases member
  | succ height ih =>
      rcases List.mem_cons.mp member with same | deeper
      · cases same
        rw [parentOf, if_pos child]
      · obtain ⟨next, nextMember, inside⟩ := List.mem_flatMap.mp deeper
        have apart := (List.nodup_flatMap.mp (List.nodup_cons.mp distinct).2).1 next nextMember
        exact parentOf_child distinct nextMember (ih apart inside)

theorem mem_branches {tree : Tree ν κ height}
    (found : parentOf p height tree = some (name, names)) :
    (name, names) ∈ branches height tree := by
  induction height with
  | zero => cases found
  | succ height ih =>
      rw [parentOf] at found
      split_ifs at found with here
      · cases found
        exact List.mem_cons_self
      · obtain ⟨child, member, inner⟩ := List.exists_of_findSome?_eq_some found
        exact List.mem_cons_of_mem _ (List.mem_flatMap.mpr ⟨child, member, ih inner⟩)

theorem parentOf_mapLeaves {f : Leaf ν κ → Leaf ν κ} (named : ∀ leaf, (f leaf).label = leaf.label)
    (p : ν) (tree : Tree ν κ height) :
    parentOf p height (mapLeaves f height tree) = parentOf p height tree := by
  induction height with
  | zero => rfl
  | succ height ih =>
      have names : label height ∘ mapLeaves f height = label height :=
        funext fun child => label_mapLeaves named child
      have inner : parentOf p height ∘ mapLeaves f height = parentOf p height := funext ih
      rw [parentOf, parentOf, mapLeaves_children, List.map_map, List.findSome?_map, names, inner]
      rfl

theorem parentOf_descend (k : ι) (tree : Tree ν κ (height + 1))
    (distinct : (labels (height + 1) tree).Nodup) :
    ∃ name before after,
      parentOf (descend key k (height + 1) tree).label (height + 1) tree =
        some (name, before ++ (descend key k (height + 1) tree).label :: after) ∧
      before.length + after.length = siblings key k (height + 1) tree ∧
      ∀ other ∈ before ++ (descend key k (height + 1) tree).label :: after,
        ∃ leaf ∈ leaves (height + 1) tree, leaf.label = other := by
  induction height with
  | zero =>
      obtain ⟨before, after, same⟩ := Branch.exists_plug_of_mem
        (pick_mem key k (Branch.label tree) (Branch.first tree) (Branch.rest tree))
      have plugged : tree = Branch.plug (Branch.label tree) before
        (pick key k (Branch.first tree) (Branch.rest tree)) after := same
      have children := congrArg Branch.children plugged
      rw [Branch.plug_children] at children
      have names : (Branch.children tree).map (label 0) =
          before.map (Leaf.label ∘ Prod.fst) ++ (descend key k 1 tree).label ::
            after.map (Leaf.label ∘ Prod.snd) := by
        rw [children]
        simp [label, descend, Function.comp_def]
      have count := congrArg (fun branch => (Branch.rest branch).length) plugged
      simp only [Branch.plug_rest_length] at count
      refine ⟨Branch.label tree, before.map (Leaf.label ∘ Prod.fst),
        after.map (Leaf.label ∘ Prod.snd), ?_, ?_, ?_⟩
      · rw [parentOf, names, if_pos (by simp)]
      · simpa [siblings] using count.symm
      · rw [← names]
        intro other member
        obtain ⟨leaf, leafMember, rfl⟩ := List.mem_map.mp member
        exact ⟨leaf, List.mem_flatMap.mpr ⟨leaf, leafMember, by simp [leaves]⟩, rfl⟩
  | succ height ih =>
      have childMember := pick_mem key k (Branch.label tree) (Branch.first tree) (Branch.rest tree)
      obtain ⟨child, picked⟩ : ∃ child, pick key k (Branch.first tree) (Branch.rest tree) = child :=
        ⟨_, rfl⟩
      rw [picked] at childMember
      have childMember : child ∈ Branch.children tree := childMember
      have inside : (labels (height + 1) child).Nodup :=
        (List.nodup_flatMap.mp (List.nodup_cons.mp distinct).2).1 child childMember
      obtain ⟨name, before, after, found, count, leafLabels⟩ := ih child inside
      have descent : descend key k (height + 1 + 1) tree = descend key k (height + 1) child := by
        rw [descend, picked]
      rw [descent]
      refine ⟨name, before, after, ?_, by rwa [siblings, picked], fun other member => ?_⟩
      · exact parentOf_child distinct childMember found
      · obtain ⟨leaf, leafMember, rfl⟩ := leafLabels other member
        exact ⟨leaf, List.mem_flatMap.mpr ⟨child, childMember, leafMember⟩, rfl⟩

end Siblings

end PagedTree
