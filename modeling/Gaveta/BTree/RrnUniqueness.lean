import Gaveta.BTree.InsertRun
import Mathlib.Data.List.GetD
import Mathlib.Data.List.Perm.Subperm

/-!
Which record numbers the nodes get.  Nothing is assumed here of the ids, of the order or of the
writes: every node has a level above those of its children, and that is enough to say how many
numbers an insertion takes.
-/

namespace Gaveta

open PagedTree

theorem openSlot_perm {α : Type} (slots : List α) (pos : Nat) (value : α) :
    (openSlot slots pos value).Perm (value :: slots) := by
  have whole : (slots.take pos ++ value :: slots.drop pos).Perm
      (value :: (slots.take pos ++ slots.drop pos)) := List.perm_middle
  rwa [List.take_append_drop] at whole

theorem splitNode_leaf_children (order : Nat) {p : BtreeNode} (k : Key) (rChild : Option Rrn)
    (new : Rrn) (leaf : p.leaf = true) :
    (splitNode order p k rChild new).left.children = p.children ∧
      (splitNode order p k rChild new).right.children = [] := by
  simp [splitNode, leaf]

theorem splitNode_branch_children (order : Nat) {p : BtreeNode} (k : Key) (rrn new : Rrn)
    (branch : p.leaf = false) :
    ∃ pos, ((splitNode order p k (some rrn) new).left.children ++
      (splitNode order p k (some rrn) new).right.children).Sublist (openSlot p.children pos rrn) := by
  refine ⟨splitPosition p.keys k.id p.keysNum + 1, ?_⟩
  simp only [splitNode, branch, Bool.false_eq_true, ↓reduceIte, Option.getD_some]
  generalize openSlot p.children (splitPosition p.keys k.id p.keysNum + 1) rrn = slots
  have parts : (slots.take ((order - 1) / 2 + 1) ++ slots.drop ((order - 1) / 2 + 1)).Sublist
      slots := by
    rw [List.take_append_drop]
  exact ((List.Sublist.refl _).append (List.take_sublist _ _)).trans parts

theorem splitNode_left (order : Nat) (p : BtreeNode) (k : Key) (rChild : Option Rrn) (new : Rrn) :
    (splitNode order p k rChild new).left.rrn = p.rrn ∧
      (splitNode order p k rChild new).left.leaf = p.leaf ∧
      (splitNode order p k rChild new).right.leaf = p.leaf := by
  rw [splitNode]
  split <;> simp_all

theorem drawn_level {level : Rrn → Nat} {new : Rrn} {created : List Rrn} (fresh : new ∉ created)
    (height : Nat) : ∀ rrn ∈ created, Function.update level new height rrn = level rrn := by
  intro rrn member
  apply Function.update_of_ne
  rintro rfl
  exact fresh member

theorem BtreeNode.child_mem {node : BtreeNode} {slot : Nat} {child : Rrn}
    (found : node.child slot = child) (some : child ≠ noRrn) : child ∈ node.children := by
  rw [BtreeNode.child] at found
  by_cases bound : slot < node.children.length
  · rw [List.getD_eq_getElem _ _ bound] at found
    exact found ▸ List.getElem_mem bound
  · rw [List.getD_eq_default _ _ (not_lt.mp bound)] at found
    exact absurd found.symm some

structure Levelled (level : Rrn → Nat) (nodes : Rrn → Option BtreeNode) (created : List Rrn) :
    Prop where
  inside : ∀ rrn node, nodes rrn = some node → rrn ∈ created
  named : ∀ rrn node, nodes rrn = some node → node.rrn = rrn
  leaf : ∀ rrn node, nodes rrn = some node → node.leaf = true → node.children = []
  below : ∀ rrn node, nodes rrn = some node → ∀ child ∈ node.children,
    child ∈ created ∧ level child < level rrn
  distinct : ∀ rrn node, nodes rrn = some node → node.children.Nodup
  apart : ∀ rrn other node otherNode, nodes rrn = some node → nodes other = some otherNode →
    ∀ child ∈ node.children, child ∈ otherNode.children → rrn = other

def Unclaimed (nodes : Rrn → Option BtreeNode) (child : Rrn) : Prop :=
  ∀ rrn node, nodes rrn = some node → child ∉ node.children

namespace Levelled

variable {level : Rrn → Nat} {nodes : Rrn → Option BtreeNode} {created : List Rrn}

theorem draw {new : Rrn} (levelled : Levelled level nodes created) (fresh : new ∉ created)
    (height : Nat) : Levelled (Function.update level new height) nodes (created ++ [new]) := by
  have kept : ∀ rrn ∈ created, Function.update level new height rrn = level rrn :=
    drawn_level fresh height
  refine ⟨fun rrn node found => List.mem_append_left _ (levelled.inside rrn node found),
    levelled.named, levelled.leaf, fun rrn node found child member => ?_, levelled.distinct,
    levelled.apart⟩
  have below := levelled.below rrn node found child member
  rw [kept child below.1, kept rrn (levelled.inside rrn node found)]
  exact ⟨List.mem_append_left _ below.1, below.2⟩

theorem store {p : Rrn} {node : BtreeNode} (levelled : Levelled level nodes created)
    (inside : p ∈ created) (name : node.rrn = p) (leaf : node.leaf = true → node.children = [])
    (nodup : node.children.Nodup)
    (children : ∀ child ∈ node.children, (child ∈ created ∧ level child < level p) ∧
      ∀ rrn other, rrn ≠ p → nodes rrn = some other → child ∉ other.children) :
    Levelled level (Function.update nodes p (some node)) created := by
  have own : ∀ rrn other, Function.update nodes p (some node) rrn = some other →
      (rrn = p ∧ other = node) ∨ (rrn ≠ p ∧ nodes rrn = some other) := by
    intro rrn other found
    by_cases same : rrn = p
    · subst same
      simp only [Function.update_self, Option.some.injEq] at found
      exact Or.inl ⟨rfl, found.symm⟩
    · rw [Function.update_of_ne same] at found
      exact Or.inr ⟨same, found⟩
  constructor
  · intro rrn other found
    rcases own rrn other found with ⟨rfl, _⟩ | ⟨_, held⟩
    · exact inside
    · exact levelled.inside rrn other held
  · intro rrn other found
    rcases own rrn other found with ⟨rfl, rfl⟩ | ⟨_, held⟩
    · exact name
    · exact levelled.named rrn other held
  · intro rrn other found
    rcases own rrn other found with ⟨_, rfl⟩ | ⟨_, held⟩
    · exact leaf
    · exact levelled.leaf rrn other held
  · intro rrn other found child member
    rcases own rrn other found with ⟨rfl, rfl⟩ | ⟨_, held⟩
    · exact (children child member).1
    · exact levelled.below rrn other held child member
  · intro rrn other found
    rcases own rrn other found with ⟨_, rfl⟩ | ⟨_, held⟩
    · exact nodup
    · exact levelled.distinct rrn other held
  · intro rrn other first second found foundOther child member claimed
    rcases own rrn first found with ⟨here, rfl⟩ | ⟨different, held⟩
    · rcases own other second foundOther with ⟨there, _⟩ | ⟨different, held⟩
      · rw [here, there]
      · exact absurd claimed ((children child member).2 other second different held)
    · rcases own other second foundOther with ⟨_, rfl⟩ | ⟨_, heldOther⟩
      · exact absurd member ((children child claimed).2 rrn first different held)
      · exact levelled.apart rrn other first second held heldOther child member claimed

theorem replace {p : Rrn} {old node : BtreeNode} (levelled : Levelled level nodes created)
    (present : nodes p = some old) (name : node.rrn = p)
    (leaf : node.leaf = true → node.children = []) (nodup : node.children.Nodup)
    (children : ∀ child ∈ node.children, child ∈ old.children ∨
      ((child ∈ created ∧ level child < level p) ∧ Unclaimed nodes child)) :
    Levelled level (Function.update nodes p (some node)) created := by
  refine levelled.store (levelled.inside p old present) name leaf nodup fun child member => ?_
  rcases children child member with inherited | ⟨below, unclaimed⟩
  · exact ⟨levelled.below p old present child inherited, fun rrn other different found claimed =>
      different (levelled.apart rrn p other old found present child claimed inherited)⟩
  · exact ⟨below, fun rrn other _ found => unclaimed rrn other found⟩

theorem add {new : Rrn} {node : BtreeNode} {height : Nat} (levelled : Levelled level nodes created)
    (fresh : new ∉ created) (name : node.rrn = new)
    (leaf : node.leaf = true → node.children = []) (nodup : node.children.Nodup)
    (children : ∀ child ∈ node.children,
      (child ∈ created ∧ level child < height) ∧ Unclaimed nodes child) :
    Levelled (Function.update level new height) (Function.update nodes new (some node))
      (created ++ [new]) := by
  refine (levelled.draw fresh height).store (by simp) name leaf nodup fun child member => ?_
  obtain ⟨⟨inside, below⟩, unclaimed⟩ := children child member
  have different : child ≠ new := fun same => fresh (same ▸ inside)
  refine ⟨⟨List.mem_append_left _ inside, ?_⟩, fun rrn other _ found => unclaimed rrn other found⟩
  simpa [different] using below

theorem unclaimed (levelled : Levelled level nodes created) {new : Rrn} (fresh : new ∉ created) :
    Unclaimed nodes new :=
  fun rrn node found member => fresh (levelled.below rrn node found new member).1

end Levelled

/-- A node reached by an incoming key, after `before` splits below it: the number of splits so far
and whether this one promotes a key. -/
def splitting (order : Nat) (s : Resident) (node : BtreeNode) (before : Nat) : Nat × Bool :=
  if node.keysNum < order - 1 then (before, false)
  else (before + 1,
    !s.ioFails (s.writes + 2 * before) && !s.ioFails (s.writes + 2 * before + 1))

/-- The number of nodes that `insert_key` creates below `p`, read off the path of the search, and
whether it promotes a key. -/
def creations (order : Nat) (s : Resident) (id : CString) : Nat → Rrn → Nat × Bool
  | 0, _ => (0, false)
  | fuel + 1, p =>
      let found := searchInBtreeNode (s.read p) id
      if found.1 = .foundKey then (0, false)
      else if (s.read p).leaf then splitting order s (s.read p) 0
      else if (s.nodes ((s.read p).child found.2)).isSome then
        let below := creations order s id fuel ((s.read p).child found.2)
        if below.2 then splitting order s (s.read p) below.1 else below
      else (0, false)

structure Counts (level after : Rrn → Nat) (s : Resident) (p : Rrn) (counted : Nat × Bool)
    (result : InsertResult Resident Rrn) : Prop where
  drew : Drew s result.1 counted.1
  ioFails : result.1.ioFails = s.ioFails
  levelled : Levelled after result.1.nodes result.1.created
  same : ∀ rrn ∈ s.created, after rrn = level rrn
  bounded : ∀ rrn ∈ result.1.created, rrn ∈ s.created ∨ after rrn ≤ level p
  frame : ∀ rrn ∈ s.created, level p < level rrn → result.1.nodes rrn = s.nodes rrn
  present : ∃ node, result.1.nodes p = some node
  promoted : counted.2 = true → ∃ promoKey child node, result.2 = (.promotion promoKey child, true) ∧
    result.1.writes = s.writes + 2 * counted.1 ∧ child ∉ s.created ∧
    result.1.nodes child = some node ∧ after child = level p ∧ Unclaimed result.1.nodes child
  stopped : counted.2 = false → ∃ status, result.2.1 = .status status

def DrawsDistinct (before after : Resident) (counted : Nat) : Prop :=
  ∃ count, Drew before after count ∧
    DistinctRrns (before.created ++ handedOut before.freeRrn (min count counted))

theorem DistinctRrns.fewer {created free : List Rrn} {count fewer : Nat}
    (distinct : DistinctRrns (created ++ handedOut free count)) (le : fewer ≤ count) :
    DistinctRrns (created ++ handedOut free fewer) := by
  obtain ⟨extra, rfl⟩ := Nat.exists_eq_add_of_le le
  rw [handedOut_add, ← List.append_assoc] at distinct
  exact distinct.of_append

section Counting

variable {order pos : Nat} {held : List Rrn} {s : Resident} {p : Rrn} {k : Key}
  {rChild : Option Rrn} {promoted : Bool} {level : Rrn → Nat} {node : BtreeNode}

theorem Counts.still (levelled : Levelled level s.nodes s.created) (present : s.nodes p = some node)
    (status : BtreeStatus) (promoted : Bool) :
    Counts level level s p (0, false) (s, .status status, promoted) :=
  ⟨Drew.none rfl rfl, rfl, levelled, fun _ _ => rfl, fun _ member => Or.inl member,
    fun _ _ _ => rfl, ⟨node, present⟩, fun impossible => by simp at impossible,
    fun _ => ⟨status, rfl⟩⟩

def Incoming (level : Rrn → Nat) (s : Resident) (p : Rrn) (node : BtreeNode) :
    Option Rrn → Prop
  | none => node.leaf = true
  | some child => node.leaf = false ∧ (child ∈ s.created ∧ level child < level p) ∧
      Unclaimed s.nodes child ∧ ∃ childNode, s.nodes child = some childNode

theorem Incoming.names (levelled : Levelled level s.nodes s.created)
    (incoming : Incoming level s p node rChild) :
    (rChild.map fun child => (s.read child).rrn) = rChild := by
  cases rChild with
  | none => rfl
  | some child =>
      obtain ⟨_, _, _, childNode, found⟩ := incoming
      have name := levelled.named child childNode found
      simp [Resident.read, found, name]

theorem Incoming.children (levelled : Levelled level s.nodes s.created)
    (present : s.nodes p = some node) {child : Rrn}
    (incoming : Incoming level s p node (some child)) (slot : Nat) :
    (openSlot node.children slot child).Nodup ∧
      ∀ other ∈ openSlot node.children slot child, other ∈ node.children ∨
        ((other ∈ s.created ∧ level other < level p) ∧ Unclaimed s.nodes other) := by
  obtain ⟨_, below, unclaimed, _⟩ := incoming
  have permuted := openSlot_perm node.children slot child
  refine ⟨permuted.nodup_iff.mpr (List.nodup_cons.mpr
    ⟨unclaimed p node present, levelled.distinct p node present⟩), fun other member => ?_⟩
  rcases List.mem_cons.mp (permuted.mem_iff.mp member) with rfl | member
  · exact Or.inr ⟨below, unclaimed⟩
  · exact Or.inl member

theorem Incoming.inserted (levelled : Levelled level s.nodes s.created)
    (present : s.nodes p = some node) (incoming : Incoming level s p node rChild) :
    Levelled level (Function.update s.nodes p (some (insertInBtreeNode node k rChild pos)))
      s.created := by
  have name := levelled.named p node present
  cases rChild with
  | none =>
      have same : (insertInBtreeNode node k none pos).children = node.children := by
        simp [insertInBtreeNode]
      refine levelled.replace present name ?_ ?_ ?_
      · rw [same]
        exact levelled.leaf p node present
      · rw [same]
        exact levelled.distinct p node present
      · rw [same]
        exact fun child member => Or.inl member
  | some child =>
      have branch := incoming.1
      have opened : (insertInBtreeNode node k (some child) pos).children =
          openSlot node.children (pos + 1) child := by
        simp [insertInBtreeNode, branch]
      have slots := incoming.children levelled present (pos + 1)
      refine levelled.replace present name ?_ ?_ ?_
      · intro leaf
        have same : (insertInBtreeNode node k (some child) pos).leaf = node.leaf := rfl
        rw [same, branch] at leaf
        cases leaf
      · rw [opened]
        exact slots.1
      · rw [opened]
        exact slots.2

theorem placeKey_counts_room (levelled : Levelled level s.nodes s.created)
    (present : s.nodes p = some node) (incoming : Incoming level s p node rChild)
    (room : node.keysNum < order - 1) :
    Counts level level s p (0, false)
      (placeKey residentPager order held s p k rChild pos promoted) := by
  have read : s.read p = node := by simp [Resident.read, present]
  rw [placeKey_room (by rwa [read]), read, incoming.names levelled]
  refine ⟨Drew.none rfl rfl, rfl, incoming.inserted levelled present, fun _ _ => rfl,
    fun _ member => Or.inl member, fun rrn _ above => ?_, ⟨_, Function.update_self ..⟩,
    fun impossible => by simp at impossible, fun _ => ⟨_, rfl⟩⟩
  have different : rrn ≠ p := by
    rintro rfl
    exact lt_irrefl _ above
  simp [different]

theorem Incoming.halves (levelled : Levelled level s.nodes s.created)
    (present : s.nodes p = some node) (incoming : Incoming level s p node rChild) (new : Rrn) :
    let halves := splitNode order node k rChild new
    (halves.left.children ++ halves.right.children).Nodup ∧
      ∀ other ∈ halves.left.children ++ halves.right.children, other ∈ node.children ∨
        ((other ∈ s.created ∧ level other < level p) ∧ Unclaimed s.nodes other) := by
  cases rChild with
  | none =>
      obtain ⟨left, right⟩ := splitNode_leaf_children order k none new incoming
      simp only [left, right, List.append_nil]
      exact ⟨levelled.distinct p node present, fun child member => Or.inl member⟩
  | some child =>
      obtain ⟨slot, sublist⟩ := splitNode_branch_children order k child new incoming.1
      have slots := incoming.children levelled present slot
      exact ⟨slots.1.sublist sublist, fun other member => slots.2 other (sublist.subset member)⟩

theorem Levelled.split_leaf (levelled : Levelled level s.nodes s.created)
    (present : s.nodes p = some node) (rChild : Option Rrn) (new : Rrn)
    (leaf : node.leaf = true) :
    (splitNode order node k rChild new).left.children = [] ∧
      (splitNode order node k rChild new).right.children = [] := by
  obtain ⟨left, right⟩ := splitNode_leaf_children order k rChild new leaf
  exact ⟨left.trans (levelled.leaf p node present leaf), right⟩

theorem Incoming.lower (levelled : Levelled level s.nodes s.created)
    (present : s.nodes p = some node) (incoming : Incoming level s p node rChild) (new : Rrn) :
    Levelled level
      (Function.update s.nodes p (some (splitNode order node k rChild new).left)) s.created := by
  obtain ⟨name, leaf, _⟩ := splitNode_left order node k rChild new
  have halves := @Incoming.halves order s p k rChild level node levelled present incoming new
  refine levelled.replace present (name.trans (levelled.named p node present)) ?_
    halves.1.of_append_left fun child member => halves.2 child (List.mem_append_left _ member)
  rw [leaf]
  exact fun isLeaf => (levelled.split_leaf present rChild new isLeaf).1

theorem Incoming.both (levelled : Levelled level s.nodes s.created)
    (present : s.nodes p = some node) (incoming : Incoming level s p node rChild) {new : Rrn}
    (fresh : new ∉ s.created) :
    Levelled (Function.update level new (level p))
      (Function.update (Function.update s.nodes p (some (splitNode order node k rChild new).left))
        new (some (splitNode order node k rChild new).right)) (s.created ++ [new]) := by
  obtain ⟨_, _, leaf⟩ := splitNode_left order node k rChild new
  have halves := @Incoming.halves order s p k rChild level node levelled present incoming new
  have parts := List.nodup_append.mp halves.1
  refine (incoming.lower levelled present new).add fresh
    (splitNode_right_rrn order node k rChild new) ?_ parts.2.1 fun child member => ?_
  · rw [leaf]
    exact fun isLeaf => (levelled.split_leaf present rChild new isLeaf).2
  · have source := halves.2 child (List.mem_append_right _ member)
    have below : child ∈ s.created ∧ level child < level p := by
      rcases source with inherited | ⟨below, _⟩
      · exact levelled.below p node present child inherited
      · exact below
    refine ⟨below, fun rrn other found claimed => ?_⟩
    by_cases same : rrn = p
    · subst same
      simp only [Function.update_self, Option.some.injEq] at found
      subst found
      exact parts.2.2 child claimed child member rfl
    · rw [Function.update_of_ne same] at found
      rcases source with inherited | ⟨_, unclaimed⟩
      · exact same (levelled.apart rrn p other node found present child claimed inherited)
      · exact unclaimed rrn other found claimed

section Full

variable {new : Rrn}

theorem counts_lost {after : Resident} {status : BtreeStatus}
    (levelled : Levelled level s.nodes s.created)
    (present : s.nodes p = some node) (incoming : Incoming level s p node rChild)
    (taken : (getFreeRrn s.freeRrn).1 = new) (fresh : new ∉ s.created)
    (nodes : after.nodes =
      Function.update s.nodes p (some (splitNode order node k rChild new).left))
    (created : after.created = s.take.created) (freeRrn : after.freeRrn = s.take.freeRrn)
    (ioFails : after.ioFails = s.ioFails) :
    Counts level (Function.update level new (level p)) s p (1, false)
      (after, .status status, promoted) := by
  have extended : after.created = s.created ++ [new] := by rw [created, Resident.take, taken]
  refine ⟨Drew.one created freeRrn, ioFails, ?_, drawn_level fresh _, ?_, ?_, ?_,
    fun impossible => by simp at impossible, fun _ => ⟨status, rfl⟩⟩
  · rw [nodes, extended]
    exact (incoming.lower levelled present new).draw fresh (level p)
  · intro rrn member
    rw [extended, List.mem_append, List.mem_singleton] at member
    exact member.imp_right fun same => by simp [same]
  · intro rrn _ above
    have different : rrn ≠ p := by
      rintro rfl
      exact lt_irrefl _ above
    simp [nodes, different]
  · exact ⟨_, by rw [nodes, Function.update_self]⟩

theorem counts_promoted {after : Resident} {promoKey : Key}
    (levelled : Levelled level s.nodes s.created)
    (present : s.nodes p = some node) (incoming : Incoming level s p node rChild)
    (taken : (getFreeRrn s.freeRrn).1 = new) (fresh : new ∉ s.created)
    (nodes : after.nodes = Function.update
      (Function.update s.nodes p (some (splitNode order node k rChild new).left))
        new (some (splitNode order node k rChild new).right))
    (created : after.created = s.take.created) (freeRrn : after.freeRrn = s.take.freeRrn)
    (ioFails : after.ioFails = s.ioFails) (writes : after.writes = s.writes + 2) :
    Counts level (Function.update level new (level p)) s p (1, true)
      (after, .promotion promoKey new, true) := by
  have extended : after.created = s.created ++ [new] := by rw [created, Resident.take, taken]
  have inside := levelled.inside p node present
  have different : p ≠ new := fun same => fresh (same ▸ inside)
  have both : Levelled (Function.update level new (level p)) after.nodes after.created := by
    rw [nodes, extended]
    exact incoming.both levelled present fresh
  refine ⟨Drew.one created freeRrn, ioFails, both, drawn_level fresh _, ?_, ?_, ?_, ?_,
    fun impossible => by simp at impossible⟩
  · intro rrn member
    rw [extended, List.mem_append, List.mem_singleton] at member
    exact member.imp_right fun same => by simp [same]
  · intro rrn member above
    have notP : rrn ≠ p := by
      rintro rfl
      exact lt_irrefl _ above
    have notNew : rrn ≠ new := fun same => fresh (same ▸ member)
    simp [nodes, notP, notNew]
  · exact ⟨_, by rw [nodes, Function.update_of_ne different, Function.update_self]⟩
  · intro _
    refine ⟨promoKey, new, _, rfl, writes, fresh, by rw [nodes, Function.update_self], by simp,
      fun rrn other found claimed => ?_⟩
    have below := (both.below rrn other found new claimed).2
    rw [Function.update_self] at below
    by_cases self : rrn = new
    · subst self
      simp at below
    by_cases atP : rrn = p
    · subst atP
      simp [self] at below
    · rw [nodes, Function.update_of_ne self, Function.update_of_ne atP] at found
      exact fresh (levelled.below rrn other found new claimed).1

theorem placeKey_counts_full (levelled : Levelled level s.nodes s.created)
    (present : s.nodes p = some node) (incoming : Incoming level s p node rChild)
    (full : ¬node.keysNum < order - 1) (distinct : DistinctRrns (s.created ++ handedOut s.freeRrn 1)) :
    ∃ after, Counts level after s p
      (1, !s.ioFails s.writes && !s.ioFails (s.writes + 1))
      (placeKey residentPager order held s p k rChild pos promoted) := by
  have read : s.read p = node := by simp [Resident.read, present]
  obtain ⟨new, taken⟩ : ∃ new, (getFreeRrn s.freeRrn).1 = new := ⟨_, rfl⟩
  rw [handedOut_succ, handedOut_zero, taken] at distinct
  have usable : new ≠ noRrn := fun same => distinct.2 (by simp [same])
  have fresh : new ∉ s.created := fun member =>
    (List.nodup_append.mp distinct.1).2.2 new member new (by simp) rfl
  have different : new ≠ p := fun same => fresh (same ▸ levelled.inside p node present)
  have missing : s.nodes new = none := by
    rw [Option.eq_none_iff_forall_ne_some]
    exact fun other found => fresh (levelled.inside new other found)
  have name := splitNode_right_rrn order node k rChild new
  have stored : (storeHalves s p (splitNode order node k rChild new)).nodes = Function.update
      (Function.update s.nodes p (some (splitNode order node k rChild new).left))
        new (some (splitNode order node k rChild new).right) := by
    rw [storeHalves_nodes, name, Function.update_comm different]
  have dropped : Function.update (storeHalves s p (splitNode order node k rChild new)).nodes new
      none = Function.update s.nodes p (some (splitNode order node k rChild new).left) := by
    rw [stored, Function.update_idem, ← Function.update_comm different, ← missing,
      Function.update_eq_self]
  refine ⟨Function.update level new (level p), ?_⟩
  rw [placeKey_full (by rwa [read]) taken rfl, read, incoming.names levelled, if_neg usable]
  by_cases first : s.ioFails s.writes
  · simp only [first, ↓reduceIte, Bool.not_true, Bool.false_and]
    exact counts_lost levelled present incoming taken fresh dropped rfl rfl rfl
  by_cases second : s.ioFails (s.writes + 1)
  · simp only [first, second, ↓reduceIte, Bool.not_true, Bool.and_false, Bool.false_eq_true]
    exact counts_lost levelled present incoming taken fresh dropped rfl rfl rfl
  · simp only [first, second, ↓reduceIte, Bool.not_false, Bool.and_true, Bool.false_eq_true]
    exact counts_promoted levelled present incoming taken fresh stored rfl rfl rfl rfl

end Full

theorem placeKey_counts (levelled : Levelled level s.nodes s.created)
    (present : s.nodes p = some node) (incoming : Incoming level s p node rChild)
    (draws : DrawsDistinct s (placeKey residentPager order held s p k rChild pos promoted).1
      (splitting order s node 0).1) :
    ∃ after, Counts level after s p (splitting order s node 0)
      (placeKey residentPager order held s p k rChild pos promoted) := by
  by_cases room : node.keysNum < order - 1
  · rw [splitting, if_pos room]
    exact ⟨level, placeKey_counts_room levelled present incoming room⟩
  · have read : s.read p = node := by simp [Resident.read, present]
    obtain ⟨count, drew, distinct⟩ := draws
    have created := drew.created.symm.trans (placeKey_full_created (by rwa [read]))
    have lengths := congrArg List.length (List.append_cancel_left created)
    rw [handedOut_length, List.length_singleton] at lengths
    subst lengths
    rw [splitting, if_neg room] at distinct ⊢
    exact placeKey_counts_full levelled present incoming room distinct

theorem Counts.lift {after : Rrn → Nat} {child : Rrn} {counted : Nat × Bool}
    {below : InsertResult Resident Rrn} (counts : Counts level after s child counted below)
    (stays : counted.2 = false) (inside : p ∈ s.created) (present : s.nodes p = some node)
    (lower : level child < level p) : Counts level after s p counted below := by
  refine ⟨counts.drew, counts.ioFails, counts.levelled, counts.same, fun rrn member => ?_,
    fun rrn member above => counts.frame rrn member (lt_trans lower above), ?_,
    fun promotes => by simp [stays] at promotes, counts.stopped⟩
  · exact (counts.bounded rrn member).imp_right fun bound => le_trans bound (le_of_lt lower)
  · exact ⟨node, (counts.frame p inside lower).trans present⟩

theorem Counts.join {middle last : Rrn → Nat} {child : Rrn} {first second : Nat × Bool}
    {below result : InsertResult Resident Rrn} (counts : Counts level middle s child first below)
    (above : Counts middle last below.1 p second result)
    (writes : below.1.writes = s.writes + 2 * first.1) (inside : p ∈ s.created)
    (lower : level child < level p) :
    Counts level last s p (first.1 + second.1, second.2) result := by
  have grown : ∀ rrn ∈ s.created, rrn ∈ below.1.created := by
    rw [counts.drew.created]
    exact fun rrn member => List.mem_append_left _ member
  have own : middle p = level p := counts.same p inside
  constructor
  · exact counts.drew.trans above.drew
  · exact above.ioFails.trans counts.ioFails
  · exact above.levelled
  · exact fun rrn member => (above.same rrn (grown rrn member)).trans (counts.same rrn member)
  · intro rrn member
    rcases above.bounded rrn member with old | bound
    · refine (counts.bounded rrn old).imp_right fun bound => ?_
      rw [above.same rrn old]
      exact le_trans bound (le_of_lt lower)
    · exact Or.inr (own ▸ bound)
  · intro rrn member higher
    rw [above.frame rrn (grown rrn member) (by rwa [own, counts.same rrn member]),
      counts.frame rrn member (lt_trans lower higher)]
  · exact above.present
  · intro promotes
    obtain ⟨promoKey, new, newNode, shape, count, fresh, found, height, unclaimed⟩ :=
      above.promoted promotes
    refine ⟨promoKey, new, newNode, shape, ?_, fun member => fresh (grown new member), found,
      height.trans own, unclaimed⟩
    simp only
    omega
  · exact above.stopped

theorem splitting_le (order : Nat) (s : Resident) (node : BtreeNode) (before : Nat) :
    ∃ extra, (splitting order s node before).1 = before + extra := by
  rw [splitting]
  split
  · exact ⟨0, rfl⟩
  · exact ⟨1, rfl⟩

theorem splitting_shift {middle : Resident} {before : Nat} (ioFails : middle.ioFails = s.ioFails)
    (writes : middle.writes = s.writes + 2 * before) :
    splitting order s node before =
      (before + (splitting order middle node 0).1, (splitting order middle node 0).2) := by
  by_cases room : node.keysNum < order - 1
  · simp [splitting, room]
  · simp [splitting, room, ioFails, writes]

theorem insertAbove_counts {child : Rrn} {below : InsertResult Resident Rrn} {first : Nat × Bool}
    (levelled : Levelled level s.nodes s.created) (present : s.nodes p = some node)
    (branch : node.leaf = false) (lower : level child < level p)
    (drawn : ∃ count, Drew s below.1 count)
    (inner : DrawsDistinct s below.1 first.1 → ∃ middle, Counts level middle s child first below)
    (draws : DrawsDistinct s (insertAbove order held p child pos below).1
      (if first.2 then splitting order s node first.1 else first).1) :
    ∃ after, Counts level after s p (if first.2 then splitting order s node first.1 else first)
      (insertAbove order held p child pos below) := by
  have inside := levelled.inside p node present
  obtain ⟨taken, belowDrew⟩ := drawn
  obtain ⟨more, aboveDrew⟩ : ∃ more, Drew below.1
    (insertAbove order held p child pos below).1 more := insertAbove_drew child pos below
  obtain ⟨count, drew, distinct⟩ := draws
  obtain rfl : count = taken + more := drew.unique (belowDrew.trans aboveDrew)
  by_cases promotes : first.2 = true
  · rw [if_pos promotes] at distinct ⊢
    obtain ⟨extra, counted⟩ := splitting_le order s node first.1
    obtain ⟨middle, counts⟩ := inner ⟨taken, belowDrew, distinct.fewer (by omega)⟩
    obtain rfl : taken = first.1 := belowDrew.unique counts.drew
    obtain ⟨promoKey, new, newNode, shape, writes, fresh, newPresent, height, unclaimed⟩ :=
      counts.promoted promotes
    have own : middle p = level p := counts.same p inside
    have kept := (counts.frame p inside lower).trans present
    have newInside := counts.levelled.inside new newNode newPresent
    have incoming : Incoming middle below.1 p node (some new) :=
      ⟨branch, ⟨newInside, by rwa [own, height]⟩, unclaimed, newNode, newPresent⟩
    rw [splitting_shift counts.ioFails writes, Nat.add_min_add_left, handedOut_add,
      ← List.append_assoc, ← counts.drew.created, ← counts.drew.freeRrn] at distinct
    rw [insertAbove_promotion shape] at aboveDrew ⊢
    rw [splitting_shift counts.ioFails writes]
    obtain ⟨last, above⟩ :=
      placeKey_counts counts.levelled kept incoming ⟨more, aboveDrew, distinct⟩
    exact ⟨last, counts.join above writes inside lower⟩
  · have stays : first.2 = false := by simpa using promotes
    rw [if_neg promotes] at distinct ⊢
    obtain ⟨middle, counts⟩ := inner ⟨taken, belowDrew, distinct.fewer (by omega)⟩
    obtain ⟨status, shape⟩ := counts.stopped stays
    rw [insertAbove_status shape]
    exact ⟨middle, counts.lift stays inside present lower⟩

theorem insertKey_counts {fuel : Nat} {root : Option Rrn}
    (levelled : Levelled level s.nodes s.created) (present : s.nodes p = some node)
    (draws : DrawsDistinct s (insertKey residentPager order root fuel held s p k promoted).1
      (creations order s k.id fuel p).1) :
    ∃ after, Counts level after s p (creations order s k.id fuel p)
      (insertKey residentPager order root fuel held s p k promoted) := by
  induction fuel generalizing held p node promoted with
  | zero => exact ⟨level, .still levelled present _ _⟩
  | succ fuel ih =>
      have read : s.read p = node := by simp [Resident.read, present]
      by_cases found : (searchInBtreeNode (s.read p) k.id).1 = .foundKey
      · rw [insertKey_found found, creations]
        simp only [found, ↓reduceIte]
        exact ⟨level, .still levelled present _ _⟩
      by_cases leaf : (s.read p).leaf = true
      · have here : creations order s k.id (fuel + 1) p = splitting order s (s.read p) 0 := by
          simp only [creations, found, leaf, ↓reduceIte]
        rw [here, read, insertKey_leaf found leaf] at draws
        rw [here, read, insertKey_leaf found leaf]
        exact placeKey_counts levelled present (read ▸ leaf) draws
      have branch : (s.read p).leaf = false := by simpa using leaf
      obtain ⟨child, slot⟩ :
          ∃ child, (s.read p).child (searchInBtreeNode (s.read p) k.id).2 = child := ⟨_, rfl⟩
      by_cases loaded : (s.nodes child).isSome
      · obtain ⟨childNode, childPresent⟩ := Option.isSome_iff_exists.mp loaded
        have member : child ∈ node.children := by
          obtain ⟨count, _, distinct⟩ := draws
          have usable := distinct.of_append.2
          refine BtreeNode.child_mem (read ▸ slot) ?_
          rintro rfl
          exact usable (levelled.inside _ childNode childPresent)
        have lower := (levelled.below p node present child member).2
        have here : creations order s k.id (fuel + 1) p =
            if (creations order s k.id fuel child).2 then
              splitting order s (s.read p) (creations order s k.id fuel child).1
            else creations order s k.id fuel child := by
          simp only [creations, found, branch, slot, loaded, Bool.false_eq_true, ↓reduceIte]
        rw [here, read, insertKey_branch found branch slot loaded] at draws
        rw [here, read, insertKey_branch found branch slot loaded]
        exact insertAbove_counts levelled present (read ▸ branch) lower insertKey_drew
          (ih childPresent) draws
      · have here : creations order s k.id (fuel + 1) p = (0, false) := by
          simp only [creations, found, branch, slot, loaded, Bool.false_eq_true, ↓reduceIte]
        rw [insertKey_missing found branch (by rwa [slot]), here]
        exact ⟨level, .still levelled present _ _⟩

end Counting

def needed (b : BTree Resident Rrn) (id : CString) : Nat :=
  match b.root with
  | none => 1
  | some root =>
      let counted := creations b.config.order b.io id depthLimit root
      if counted.2 then counted.1 + 1 else counted.1

structure Rooted (level : Rrn → Nat) (b : BTree Resident Rrn) : Prop where
  levelled : Levelled level b.io.nodes b.io.created
  present : ∀ root, b.root = some root → ∃ node, b.io.nodes root = some node
  highest : ∀ root, b.root = some root → ∀ rrn ∈ b.io.created, level rrn ≤ level root
  empty : b.root = none → b.io.created = []

section Rooting

variable {b : BTree Resident Rrn} {level : Rrn → Nat} {root : Rrn}

theorem Rooted.unclaimed (rooted : Rooted level b) (found : b.root = some root) :
    Unclaimed b.io.nodes root := by
  intro rrn node present member
  have below := (rooted.levelled.below rrn node present root member).2
  have bound := rooted.highest root found rrn (rooted.levelled.inside rrn node present)
  omega

theorem Rooted.of_root {node : BtreeNode} (found : b.root = some root)
    (levelled : Levelled level b.io.nodes b.io.created) (present : b.io.nodes root = some node)
    (highest : ∀ rrn ∈ b.io.created, level rrn ≤ level root) : Rooted level b := by
  refine ⟨levelled, ?_, ?_, fun empty => by simp [found] at empty⟩
  · intro other isRoot
    rw [← Option.some.inj (found.symm.trans isRoot)]
    exact ⟨node, present⟩
  · intro other isRoot
    rw [← Option.some.inj (found.symm.trans isRoot)]
    exact highest

theorem Rooted.create {new : Rrn} {k : Key} (rooted : Rooted level b) (empty : b.root = none)
    (taken : (getFreeRrn b.io.freeRrn).1 = new) :
    ∃ after, Rooted after (createRoot residentPager b k).1 := by
  have nothing := rooted.empty empty
  have created : b.io.take.created = b.io.created ++ [new] := by simp [taken]
  have leaf : Levelled (Function.update level new 0)
      (Function.update b.io.nodes new (some (leafNode (Leaf.mk new [k] noRrn))))
      b.io.take.created := by
    rw [created]
    exact rooted.levelled.add (by simp [nothing]) rfl (by simp [leafNode]) (by simp [leafNode])
      (by simp [leafNode])
  rw [createRoot_resident, taken]
  refine ⟨_, .of_root rfl leaf (Function.update_self ..) fun rrn member => ?_⟩
  have same : rrn ∈ b.io.take.created := member
  rw [created, nothing, List.nil_append, List.mem_singleton] at same
  rw [same]

theorem Counts.rooted {after : Rrn → Nat} {counted : Nat × Bool}
    {inserted : InsertResult Resident Rrn} (rooted : Rooted level b) (found : b.root = some root)
    (counts : Counts level after b.io root counted inserted) :
    Rooted after { b with io := inserted.1 } := by
  obtain ⟨node, present⟩ := rooted.present root found
  have same := counts.same root (rooted.levelled.inside root node present)
  obtain ⟨after, found⟩ := counts.present
  refine .of_root ‹b.root = some root› counts.levelled found fun rrn member => ?_
  rw [same]
  rcases counts.bounded rrn member with old | bound
  · rw [counts.same rrn old]
    exact rooted.highest root ‹b.root = some root› rrn old
  · exact bound

theorem Rooted.grow {s : Resident} {new child : Rrn} {childNode : BtreeNode} {promoKey : Key}
    (rooted : Rooted level { b with io := s }) (found : b.root = some root)
    (taken : (getFreeRrn s.freeRrn).1 = new) (fresh : new ∉ s.created)
    (present : s.nodes child = some childNode) (height : level child = level root)
    (different : root ≠ child) (unclaimed : Unclaimed s.nodes child) :
    ∃ after, Rooted after (growRoot residentPager b root s promoKey child).1 := by
  have levelled : Levelled level s.nodes s.created := rooted.levelled
  obtain ⟨node, rootPresent⟩ := rooted.present root found
  have rootName : (s.read root).rrn = root := by
    simp [Resident.read, show s.nodes root = some node from rootPresent,
      levelled.named root node rootPresent]
  have childName : (s.read child).rrn = child := by
    simp [Resident.read, present, levelled.named child childNode present]
  have missing : s.nodes new = none := by
    rw [Option.eq_none_iff_forall_ne_some]
    exact fun other inside => fresh (levelled.inside new other inside)
  have inside := levelled.inside root node rootPresent
  have created : s.take.created = s.created ++ [new] := by simp [taken]
  have known : ∀ height, ∀ rrn ∈ s.created, Function.update level new height rrn = level rrn :=
    drawn_level fresh
  have highest : ∀ rrn ∈ s.created, level rrn ≤ level root := rooted.highest root found
  rw [growRoot_resident]
  simp only [taken, rootName, childName]
  by_cases fails : s.ioFails s.writes
  · rw [if_pos fails]
    have kept : ∀ other, Function.update (Function.update s.nodes new (some other)) new none =
        s.nodes := by
      intro other
      rw [Function.update_idem, ← missing, Function.update_eq_self]
    have drawn : Levelled (Function.update level new (level root)) s.nodes s.take.created := by
      rw [created]
      exact levelled.draw fresh (level root)
    refine ⟨_, .of_root found (by rw [← kept] at drawn; exact drawn)
      ((congrFun (kept _) root).trans rootPresent) fun rrn member => ?_⟩
    have listed : rrn ∈ s.take.created := member
    rw [created, List.mem_append, List.mem_singleton] at listed
    rw [known _ root inside]
    rcases listed with old | rfl
    · rw [known _ rrn old]
      exact highest rrn old
    · simp
  · rw [if_neg fails]
    have grown : Levelled (Function.update level new (level root + 1))
        (Function.update s.nodes new (some
          { keys := [promoKey], rrn := new, children := [root, child], nextLeaf := noRrn,
            leaf := false })) s.take.created := by
      rw [created]
      refine levelled.add fresh rfl (by simp) (by simpa using different) fun other member => ?_
      simp only [List.mem_cons, List.not_mem_nil, or_false] at member
      rcases member with rfl | rfl
      · exact ⟨⟨inside, by omega⟩, rooted.unclaimed found⟩
      · exact ⟨⟨levelled.inside other childNode present, by omega⟩, unclaimed⟩
    refine ⟨_, .of_root rfl grown (Function.update_self ..) fun rrn member => ?_⟩
    have listed : rrn ∈ s.take.created := member
    rw [created, List.mem_append, List.mem_singleton] at listed
    rw [Function.update_self]
    rcases listed with old | rfl
    · rw [known _ rrn old]
      exact le_trans (highest rrn old) (Nat.le_succ _)
    · simp

theorem growRoot_drew (s : Resident) (promoKey : Key) (child : Rrn) :
    Drew s (growRoot residentPager b root s promoKey child).1.io 1 := by
  rw [growRoot_resident]
  dsimp only
  split_ifs <;> exact Drew.one rfl rfl

theorem finishInsert_status {inserted : InsertResult Resident Rrn} {status : BtreeStatus}
    (shape : inserted.2.1 = .status status) :
    (finishInsert residentPager b root inserted).1 = { b with io := inserted.1 } := by
  rw [finishInsert, shape]

theorem finishInsert_promotion {inserted : InsertResult Resident Rrn} {promoKey : Key} {child : Rrn}
    (shape : inserted.2 = (.promotion promoKey child, true)) :
    finishInsert residentPager b root inserted =
      growRoot residentPager b root inserted.1 promoKey child := by
  rw [finishInsert, shape]
  rfl

theorem finishInsert_counts {inserted : InsertResult Resident Rrn} {counted : Nat × Bool}
    (rooted : Rooted level b) (found : b.root = some root)
    (drawn : ∃ count, Drew b.io inserted.1 count)
    (inner : DrawsDistinct b.io inserted.1 counted.1 →
      ∃ after, Counts level after b.io root counted inserted)
    (draws : DrawsDistinct b.io (finishInsert residentPager b root inserted).1.io
      (if counted.2 then counted.1 + 1 else counted.1)) :
    (∃ after, Rooted after (finishInsert residentPager b root inserted).1) ∧
      Drew b.io (finishInsert residentPager b root inserted).1.io
        (if counted.2 then counted.1 + 1 else counted.1) := by
  obtain ⟨taken, belowDrew⟩ := drawn
  obtain ⟨more, aboveDrew⟩ := finishInsert_drew b root inserted
  obtain ⟨count, drew, distinct⟩ := draws
  obtain rfl : count = taken + more := drew.unique (belowDrew.trans aboveDrew)
  have fewer : min taken counted.1 ≤
      min (taken + more) (if counted.2 then counted.1 + 1 else counted.1) := by
    split_ifs <;> omega
  obtain ⟨after, counts⟩ := inner ⟨taken, belowDrew, distinct.fewer fewer⟩
  obtain rfl : taken = counted.1 := belowDrew.unique counts.drew
  obtain ⟨node, rootPresent⟩ := rooted.present root found
  have inside := rooted.levelled.inside root node rootPresent
  by_cases promotes : counted.2 = true
  · rw [if_pos promotes] at distinct ⊢
    obtain ⟨promoKey, child, childNode, shape, _, fresh, present, height, unclaimed⟩ :=
      counts.promoted promotes
    rw [finishInsert_promotion shape] at aboveDrew ⊢
    obtain rfl : more = 1 := aboveDrew.unique (growRoot_drew inserted.1 promoKey child)
    rw [min_self, handedOut_add, ← List.append_assoc, ← counts.drew.created,
      ← counts.drew.freeRrn, handedOut_succ, handedOut_zero] at distinct
    have new : (getFreeRrn inserted.1.freeRrn).1 ∉ inserted.1.created := fun member =>
      (List.nodup_append.mp distinct.1).2.2 _ member _ (by simp) rfl
    have level : after child = after root := height.trans (counts.same root inside).symm
    exact ⟨(counts.rooted rooted found).grow found rfl new present level
      (fun same => fresh (same ▸ inside)) unclaimed, belowDrew.trans aboveDrew⟩
  · have stays : counted.2 = false := by simpa using promotes
    obtain ⟨status, shape⟩ := counts.stopped stays
    rw [if_neg promotes, finishInsert_status shape]
    exact ⟨⟨after, counts.rooted rooted found⟩, belowDrew⟩

theorem bInsert_counts {id : CString} {rrn : Rrn} (rooted : Rooted level b)
    (draws : DrawsDistinct b.io (bInsert residentPager b id rrn).1.io (needed b id)) :
    (∃ after, Rooted after (bInsert residentPager b id rrn).1) ∧
      Drew b.io (bInsert residentPager b id rrn).1.io (needed b id) := by
  rcases empty : b.root with _ | root
  · have whole : bInsert residentPager b id rrn =
        createRoot residentPager b { id := id, dataRegisterRrn := rrn } := by
      rw [bInsert, empty]
    have one : needed b id = 1 := by rw [needed, empty]
    rw [whole, one]
    exact ⟨rooted.create empty rfl, Drew.one rfl rfl⟩
  · have whole : bInsert residentPager b id rrn = finishInsert residentPager b root
        (insertKey residentPager b.config.order b.root depthLimit [] b.io root
          { id := id, dataRegisterRrn := rrn } false) := by
      rw [bInsert, empty]
    have count : needed b id =
        if (creations b.config.order b.io id depthLimit root).2 then
          (creations b.config.order b.io id depthLimit root).1 + 1
        else (creations b.config.order b.io id depthLimit root).1 := by
      rw [needed, empty]
    obtain ⟨node, present⟩ := rooted.present root empty
    rw [whole, count] at draws
    rw [whole, count]
    exact finishInsert_counts rooted empty insertKey_drew
      (insertKey_counts rooted.levelled present) draws

end Rooting

inductive ReachableFrom (nodes : Rrn → Option BtreeNode) (root : Rrn) : Rrn → Prop
  | root : ReachableFrom nodes root root
  | child {rrn child : Rrn} {node : BtreeNode} (parent : ReachableFrom nodes root rrn)
      (found : nodes rrn = some node) (member : child ∈ node.children) :
      ReachableFrom nodes root child

/-- No two nodes below the root share a record number: no two child slots name the same one, and
none names the root. -/
def SharesNoRrn (b : BTree Resident Rrn) : Prop :=
  ∀ root, b.root = some root → ∀ rrn node, ReachableFrom b.io.nodes root rrn →
    b.io.nodes rrn = some node → root ∉ node.children ∧ node.children.Nodup ∧
      ∀ other otherNode, ReachableFrom b.io.nodes root other → b.io.nodes other = some otherNode →
        ∀ child ∈ node.children, child ∈ otherNode.children → rrn = other

def RrnsUnique (b : BTree Resident Rrn) : Prop :=
  DistinctRrns b.io.created ∧ SharesNoRrn b

theorem Rooted.sharesNoRrn {b : BTree Resident Rrn} {level : Rrn → Nat} (rooted : Rooted level b) :
    SharesNoRrn b := by
  intro root found rrn node _ present
  refine ⟨rooted.unclaimed found rrn node present, rooted.levelled.distinct rrn node present, ?_⟩
  intro other otherNode _ otherPresent
  exact rooted.levelled.apart rrn other node otherNode present otherPresent

/-- The number of distinct record numbers that `get_free_rrn` can still hand out: those of the free
list, and once 0, the size of the empty list. -/
def available (s : Resident) : Nat :=
  s.freeRrn.length + if 0 ∈ s.created ∨ 0 ∈ s.freeRrn then 0 else 1

theorem handedOut_beyond (free : List Rrn) (extra : Nat) :
    handedOut free (free.length + extra) = free ++ List.replicate extra 0 := by
  simp [handedOut, List.take_of_length_le]

theorem distinct_append_zero (rrns : List Rrn) :
    DistinctRrns (rrns ++ [0]) ↔ DistinctRrns rrns ∧ 0 ∉ rrns := by
  have different : noRrn ≠ 0 := by decide
  simp only [DistinctRrns, List.nodup_append, List.mem_append, List.mem_singleton, different,
    List.nodup_singleton, or_false, true_and]
  constructor
  · rintro ⟨⟨nodup, apart⟩, missing⟩
    exact ⟨⟨nodup, missing⟩, fun member => apart 0 member 0 rfl rfl⟩
  · rintro ⟨⟨nodup, missing⟩, zero⟩
    exact ⟨⟨nodup, fun rrn member other same equal => zero (same ▸ equal ▸ member)⟩, missing⟩

theorem distinct_iff_available {s : Resident} (distinct : DistinctRrns (s.created ++ s.freeRrn))
    (count : Nat) : DistinctRrns (s.created ++ handedOut s.freeRrn count) ↔ count ≤ available s := by
  by_cases listed : count ≤ s.freeRrn.length
  · refine iff_of_true ?_ (by rw [available]; omega)
    have whole := handedOut_beyond s.freeRrn 0
    rw [List.replicate_zero, List.append_nil, Nat.add_zero] at whole
    rw [← whole] at distinct
    exact distinct.fewer listed
  obtain ⟨extra, rfl⟩ : ∃ extra, count = s.freeRrn.length + (extra + 1) :=
    ⟨count - s.freeRrn.length - 1, by omega⟩
  rw [handedOut_beyond, List.replicate_succ, ← List.append_assoc, available]
  cases extra with
  | zero =>
      rw [List.replicate_zero, distinct_append_zero, List.mem_append]
      by_cases used : 0 ∈ s.created ∨ 0 ∈ s.freeRrn
      · simp [used]
      · simp [used, distinct]
  | succ extra =>
      refine iff_of_false (fun repeated => ?_) (by split_ifs <;> omega)
      have tail := (List.nodup_append.mp repeated.1).2.1
      simp [List.replicate_succ] at tail

theorem distinct_rest {created free : List Rrn} {count : Nat}
    (distinct : DistinctRrns (created ++ free))
    (next : DistinctRrns (created ++ handedOut free count)) :
    DistinctRrns (created ++ handedOut free count ++ free.drop count) := by
  by_cases listed : count ≤ free.length
  · have whole : handedOut free count ++ free.drop count = free := by
      rw [handedOut, Nat.sub_eq_zero_of_le listed, List.replicate_zero, List.append_nil,
        List.take_append_drop]
    rwa [List.append_assoc, whole]
  · rw [List.drop_of_length_le (by omega), List.append_nil]
    exact next

def EnoughRrns : BTree Resident Rrn → List (CString × Rrn) → Prop
  | _, [] => True
  | b, entry :: rest =>
      needed b entry.1 ≤ available b.io ∧
      ((bInsert residentPager b entry.1 entry.2).2.isSome →
        EnoughRrns (bInsert residentPager b entry.1 entry.2).1 rest)

theorem Rooted.run_iff {b : BTree Resident Rrn} {level : Rrn → Nat} (rooted : Rooted level b)
    (distinct : DistinctRrns (b.io.created ++ b.io.freeRrn)) (entries : List (CString × Rrn)) :
    RrnsUnique (insertAll residentPager b entries) ↔ EnoughRrns b entries := by
  induction entries generalizing b level with
  | nil => exact iff_of_true ⟨distinct.of_append, rooted.sharesNoRrn⟩ trivial
  | cons entry rest ih =>
      obtain ⟨count, drew⟩ := bInsert_drew b entry.1 entry.2
      have counts := @bInsert_counts b level entry.1 entry.2 rooted
      have enough := distinct_iff_available distinct (needed b entry.1)
      have reached : DistinctRrns (bInsert residentPager b entry.1 entry.2).1.io.created →
          DistinctRrns (b.io.created ++ handedOut b.io.freeRrn (needed b entry.1)) := by
        intro final
        rw [drew.created] at final
        have same := drew.unique (counts ⟨count, drew, final.fewer (min_le_left _ _)⟩).2
        rwa [same] at final
      have continues : DistinctRrns (b.io.created ++ handedOut b.io.freeRrn (needed b entry.1)) →
          ∃ after, Rooted after (bInsert residentPager b entry.1 entry.2).1 ∧
            DistinctRrns ((bInsert residentPager b entry.1 entry.2).1.io.created ++
              (bInsert residentPager b entry.1 entry.2).1.io.freeRrn) := by
        intro next
        obtain ⟨⟨after, later⟩, exact⟩ := counts ⟨count, drew, next.fewer (min_le_right _ _)⟩
        refine ⟨after, later, ?_⟩
        rw [exact.created, exact.freeRrn]
        exact distinct_rest distinct next
      rw [EnoughRrns, ← enough, insertAll]
      rcases returned : (bInsert residentPager b entry.1 entry.2).2 with _ | status
      · simp only [Option.isSome_none, Bool.false_eq_true, false_implies, and_true]
        refine ⟨fun unique => reached unique.1, fun next => ?_⟩
        obtain ⟨after, later, free⟩ := continues next
        exact ⟨free.of_append, later.sharesNoRrn⟩
      · simp only [Option.isSome_some, true_implies]
        constructor
        · intro unique
          obtain ⟨more, rest⟩ := insertAll_drew (bInsert residentPager b entry.1 entry.2).1 rest
          have final := unique.1
          rw [rest.created] at final
          have next := reached final.of_append
          obtain ⟨after, later, free⟩ := continues next
          exact ⟨next, (ih later free).mp unique⟩
        · rintro ⟨next, others⟩
          obtain ⟨after, later, free⟩ := continues next
          exact (ih later free).mpr others

/-- In a run from the empty tree the record numbers of the nodes are distinct exactly as long as
every insertion finds enough of them. -/
theorem rrns_unique_iff (config : BtreeConfig) (free : List Rrn) (ioFails : Nat → Bool)
    (entries : List (CString × Rrn)) (unused : DistinctRrns free) :
    RrnsUnique (insertAll residentPager (allocTreeBuf config free ioFails) entries) ↔
      EnoughRrns (allocTreeBuf config free ioFails) entries := by
  have start : Rooted (fun _ => 0) (allocTreeBuf config free ioFails) :=
    ⟨⟨by simp [allocTreeBuf], by simp [allocTreeBuf], by simp [allocTreeBuf],
      by simp [allocTreeBuf], by simp [allocTreeBuf], by simp [allocTreeBuf]⟩,
      by simp [allocTreeBuf], by simp [allocTreeBuf], fun _ => rfl⟩
  exact start.run_iff (by simpa [allocTreeBuf] using unused) entries

theorem rrns_unique_iff_three :
    RrnsUnique (insertAll residentPager (allocTreeBuf smallConfig [1, 2, 3] fun _ => false)
        threeEntries) ↔
      EnoughRrns (allocTreeBuf smallConfig [1, 2, 3] fun _ => false) threeEntries :=
  rrns_unique_iff smallConfig [1, 2, 3] (fun _ => false) threeEntries (by decide)

/-- With an empty free list the first split gives its new node the number 0 of the root. -/
theorem rrns_repeat_zero :
    (insertAll residentPager (allocTreeBuf smallConfig [] fun _ => false)
      threeEntries).io.created = [0, 0, 0] ∧
    ¬RrnsUnique (insertAll residentPager (allocTreeBuf smallConfig [] fun _ => false)
      threeEntries) := by
  have created : (insertAll residentPager (allocTreeBuf smallConfig [] fun _ => false)
      threeEntries).io.created = [0, 0, 0] := by decide +kernel
  refine ⟨created, fun unique => ?_⟩
  have distinct := unique.1
  rw [created] at distinct
  revert distinct
  decide

end Gaveta
