import Mathlib.Data.List.Lex
import Mathlib.Data.List.Flatten

/-!
Search trees of uniform height whose nodes carry labels.  Records live in the leaves, which are
chained by label; a branch holds its first child and one separator for every further child, so
the numbers of separators and children cannot disagree.
-/

namespace PagedTree

variable {ν κ τ α ι : Type}

structure Leaf (ν κ : Type) where
  label : ν
  records : List κ
  next : ν

structure Branch (ν κ τ : Type) where
  label : ν
  first : τ
  rest : List (κ × τ)

@[reducible] def Tree (ν κ : Type) : Nat → Type
  | 0 => Leaf ν κ
  | height + 1 => Branch ν κ (Tree ν κ height)

namespace Branch

def separators (branch : Branch ν κ τ) : List κ := branch.rest.map Prod.fst

def children (branch : Branch ν κ τ) : List τ := branch.first :: branch.rest.map Prod.snd

/-- A branch seen from one child: the children before it with the separator to their right, the
child, and the children after it with the separator to their left. -/
def plug (label : ν) : List (τ × κ) → τ → List (κ × τ) → Branch ν κ τ
  | [], child, after => ⟨label, child, after⟩
  | (first, separator) :: before, child, after =>
      ⟨label, first, (separator, (plug label before child after).first) ::
        (plug label before child after).rest⟩

@[simp] theorem plug_label (label : ν) (before : List (τ × κ)) (child : τ)
    (after : List (κ × τ)) : (plug label before child after).label = label := by
  cases before <;> rfl

@[simp] theorem plug_separators (label : ν) (before : List (τ × κ)) (child : τ)
    (after : List (κ × τ)) :
    (plug label before child after).separators =
      before.map Prod.snd ++ after.map Prod.fst := by
  induction before with
  | nil => rfl
  | cons pair before ih => simpa [plug, separators] using ih

@[simp] theorem plug_children (label : ν) (before : List (τ × κ)) (child : τ)
    (after : List (κ × τ)) :
    (plug label before child after).children =
      before.map Prod.fst ++ child :: after.map Prod.snd := by
  induction before with
  | nil => rfl
  | cons pair before ih => simpa [plug, children] using ih

@[simp] theorem plug_rest_length (label : ν) (before : List (τ × κ)) (child : τ)
    (after : List (κ × τ)) :
    (plug label before child after).rest.length = before.length + after.length := by
  have counted := congrArg List.length (plug_separators label before child after)
  simpa [separators] using counted

theorem exists_plug (branch : Branch ν κ τ) (position : Nat)
    (bound : position ≤ branch.rest.length) :
    ∃ before child after, branch = plug branch.label before child after ∧
      before.length = position := by
  obtain ⟨label, first, rest⟩ := branch
  induction position generalizing first rest with
  | zero => exact ⟨[], first, rest, rfl, rfl⟩
  | succ position ih =>
      cases rest with
      | nil => simp at bound
      | cons pair rest =>
          obtain ⟨before, child, after, same, length⟩ := ih pair.2 rest (by simpa using bound)
          refine ⟨(first, pair.1) :: before, child, after, ?_, by simp [length]⟩
          simp only [plug, ← same]

theorem exists_plug_of_mem {branch : Branch ν κ τ} {child : τ}
    (member : child ∈ branch.children) :
    ∃ before after, branch = plug branch.label before child after := by
  obtain ⟨position, bound, found⟩ := List.mem_iff_getElem.mp member
  obtain ⟨before, other, after, same, length⟩ := exists_plug branch position (by
    simp only [children, List.length_cons, List.length_map] at bound
    omega)
  have split : branch.children = before.map Prod.fst ++ other :: after.map Prod.snd := by
    rw [same, plug_children]
  refine ⟨before, after, ?_⟩
  simp only [split] at found
  rw [List.getElem_append_right (by simp [length])] at found
  simp only [List.length_map, length, Nat.sub_self, List.getElem_cons_zero] at found
  rwa [found] at same

end Branch

inductive Item (κ : Type) where
  | record (value : κ)
  | separator (value : κ)

@[simp] def Item.value : Item κ → κ
  | record value => value
  | separator value => value

def Branch.interleave (inside : τ → List (Item κ)) (branch : Branch ν κ τ) : List (Item κ) :=
  inside branch.first ++ branch.rest.flatMap fun pair => .separator pair.1 :: inside pair.2

theorem Branch.interleave_plug (inside : τ → List (Item κ)) (label : ν) (before : List (τ × κ))
    (child : τ) (after : List (κ × τ)) :
    (plug label before child after).interleave inside =
      before.flatMap (fun pair => inside pair.1 ++ [.separator pair.2]) ++ (inside child ++
        after.flatMap fun pair => .separator pair.1 :: inside pair.2) := by
  induction before with
  | nil => rfl
  | cons pair before ih =>
      simp only [interleave] at ih
      simp [plug, interleave, ih]

theorem Branch.interleave_cut (inside : τ → List (Item κ)) (label left right : ν) (first : τ)
    (before : List (κ × τ)) (separator : κ) (child : τ) (after : List (κ × τ)) :
    (Branch.mk label first (before ++ (separator, child) :: after)).interleave inside =
      (Branch.mk left first before).interleave inside ++
        .separator separator :: (Branch.mk right child after).interleave inside := by
  simp [interleave]

theorem mem_interleave {inside : τ → List (Item κ)} {branch : Branch ν κ τ} {child : τ}
    {item : Item κ} (member : child ∈ branch.children) (listed : item ∈ inside child) :
    item ∈ branch.interleave inside := by
  obtain ⟨before, after, same⟩ := Branch.exists_plug_of_mem member
  rw [same, Branch.interleave_plug]
  simp [listed]

section Listing

def label : (height : Nat) → Tree ν κ height → ν
  | 0, leaf => Leaf.label leaf
  | _ + 1, branch => Branch.label branch

def leaves : (height : Nat) → Tree ν κ height → List (Leaf ν κ)
  | 0, leaf => [leaf]
  | height + 1, branch => (Branch.children branch).flatMap (leaves height)

def records (height : Nat) (tree : Tree ν κ height) : List κ :=
  (leaves height tree).flatMap Leaf.records

def labels : (height : Nat) → Tree ν κ height → List ν
  | 0, leaf => [Leaf.label leaf]
  | height + 1, branch =>
      Branch.label branch :: (Branch.children branch).flatMap (labels height)

def separators : (height : Nat) → Tree ν κ height → List κ
  | 0, _ => []
  | height + 1, branch =>
      Branch.separators branch ++ (Branch.children branch).flatMap (separators height)

def inorder : (height : Nat) → Tree ν κ height → List (Item κ)
  | 0, leaf => (Leaf.records leaf).map .record
  | height + 1, branch => Branch.interleave (inorder height) branch

theorem label_mem_labels (height : Nat) (tree : Tree ν κ height) :
    label height tree ∈ labels height tree := by
  cases height <;> simp [label, labels]

theorem labels_plug (height : Nat) (name : ν) (before : List (Tree ν κ height × κ))
    (child : Tree ν κ height) (after : List (κ × Tree ν κ height)) :
    labels (height + 1) (Branch.plug name before child after) =
      name :: ((before.map Prod.fst).flatMap (labels height) ++
        (labels height child ++ (after.map Prod.snd).flatMap (labels height))) := by
  simp [labels]

theorem records_leaf (leaf : Leaf ν κ) : records 0 leaf = leaf.records := by
  simp [records, leaves]

theorem records_branch (height : Nat) (branch : Branch ν κ (Tree ν κ height)) :
    records (height + 1) branch = branch.children.flatMap (records height) := by
  simp only [records, leaves, List.flatMap_assoc]
  rfl

def Item.record? : Item κ → Option κ
  | record value => some value
  | separator _ => none

theorem records_eq_filterMap (height : Nat) (tree : Tree ν κ height) :
    records height tree = (inorder height tree).filterMap Item.record? := by
  induction height with
  | zero => simp [records_leaf, inorder, List.filterMap_map, Function.comp_def, Item.record?]
  | succ height ih =>
      rw [records_branch, inorder, Branch.interleave, Branch.children]
      simp [List.filterMap_flatMap, List.filterMap_cons, Item.record?, ih, List.flatMap_map]

theorem mem_records_iff (height : Nat) (tree : Tree ν κ height) (value : κ) :
    value ∈ records height tree ↔ Item.record value ∈ inorder height tree := by
  rw [records_eq_filterMap, List.mem_filterMap]
  constructor
  · rintro ⟨item, member, found⟩
    cases item with
    | record other =>
        simp only [Item.record?, Option.some.injEq] at found
        rwa [← found]
    | separator other => simp [Item.record?] at found
  · exact fun member => ⟨.record value, member, rfl⟩

theorem mem_separators_iff (height : Nat) (tree : Tree ν κ height) (value : κ) :
    value ∈ separators height tree ↔ Item.separator value ∈ inorder height tree := by
  induction height with
  | zero => simp [separators, inorder]
  | succ height ih =>
      obtain ⟨name, first, rest⟩ := tree
      simp only [separators, inorder, Branch.separators, Branch.children, Branch.interleave,
        List.mem_append, List.mem_flatMap, List.mem_map, List.mem_cons, ih]
      constructor
      · rintro (⟨pair, member, rfl⟩ | ⟨child, rfl | ⟨pair, member, rfl⟩, inside⟩)
        · exact Or.inr ⟨pair, member, Or.inl rfl⟩
        · exact Or.inl inside
        · exact Or.inr ⟨pair, member, Or.inr inside⟩
      · rintro (inside | ⟨pair, member, same | inside⟩)
        · exact Or.inr ⟨first, Or.inl rfl, inside⟩
        · exact Or.inl ⟨pair, member, by simpa using same.symm⟩
        · exact Or.inr ⟨pair.2, Or.inr ⟨pair, member, rfl⟩, inside⟩

end Listing

end PagedTree
