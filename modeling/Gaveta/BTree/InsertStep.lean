import Gaveta.BTree.Insert
import Gaveta.BTree.Resident

/-! `insert_key` on stored trees is the insertion of `Gaveta.Library.Insertion`. -/

namespace Gaveta

open PagedTree

def handedOut (free : List Rrn) (count : Nat) : List Rrn :=
  free.take count ++ List.replicate (count - free.length) 0

theorem handedOut_zero (free : List Rrn) : handedOut free 0 = [] := by simp [handedOut]

theorem handedOut_succ (free : List Rrn) (count : Nat) :
    handedOut free (count + 1) =
      (getFreeRrn free).1 :: handedOut (getFreeRrn free).2 count := by
  cases free with
  | nil => simp [handedOut, getFreeRrn, List.replicate_succ]
  | cons rrn rest => simp [handedOut, getFreeRrn]

theorem getFreeRrn_rest (free : List Rrn) : (getFreeRrn free).2 = free.drop 1 := by
  cases free <;> rfl

structure Drew (before after : Resident) (count : Nat) : Prop where
  created : after.created = before.created ++ handedOut before.freeRrn count
  freeRrn : after.freeRrn = before.freeRrn.drop count

theorem Drew.none {before after : Resident} (created : after.created = before.created)
    (freeRrn : after.freeRrn = before.freeRrn) : Drew before after 0 :=
  ⟨by simp [created, handedOut_zero], by simp [freeRrn]⟩

theorem Drew.one {before after : Resident} (created : after.created = before.take.created)
    (freeRrn : after.freeRrn = before.take.freeRrn) : Drew before after 1 :=
  ⟨by simp [created, handedOut_succ, handedOut_zero], by simp [freeRrn, getFreeRrn_rest]⟩

theorem handedOut_add (free : List Rrn) (first second : Nat) :
    handedOut free (first + second) =
      handedOut free first ++ handedOut (free.drop first) second := by
  induction first generalizing free with
  | zero => simp [handedOut_zero]
  | succ first ih =>
      rw [Nat.add_right_comm, handedOut_succ, handedOut_succ, ih, List.cons_append,
        getFreeRrn_rest, List.drop_drop, Nat.add_comm 1 first]

theorem Drew.trans {before middle after : Resident} {first second : Nat}
    (left : Drew before middle first) (right : Drew middle after second) :
    Drew before after (first + second) := by
  constructor
  · rw [right.created, left.created, left.freeRrn, handedOut_add, List.append_assoc]
  · rw [right.freeRrn, left.freeRrn, List.drop_drop]

theorem handedOut_length (free : List Rrn) (count : Nat) :
    (handedOut free count).length = count := by
  simp only [handedOut, List.length_append, List.length_take, List.length_replicate]
  omega

theorem Drew.unique {before after : Resident} {count other : Nat} (drew : Drew before after count)
    (again : Drew before after other) : count = other := by
  have same := drew.created.symm.trans again.created
  have lengths := congrArg List.length (List.append_cancel_left same)
  rwa [handedOut_length, handedOut_length] at lengths

section Place

variable {order pos : Nat} {held : List Rrn} {s : Resident} {p : Rrn} {k : Key}
  {rChild : Option Rrn} {promoted : Bool}

theorem placeKey_room (room : (s.read p).keysNum < order - 1) :
    placeKey residentPager order held s p k rChild pos promoted =
      ((s.store p (insertInBtreeNode (s.read p) k
          (rChild.map fun child => (s.read child).rrn) pos)).wrote,
        .status (if s.ioFails s.writes then .errorIo else .success), false) := by
  simp [placeKey, room]

def storeHalves (s : Resident) (p : Rrn) (halves : Halves) : Resident :=
  (s.take.store halves.right.rrn halves.right).store p halves.left

theorem storeHalves_nodes (s : Resident) (p : Rrn) (halves : Halves) :
    (storeHalves s p halves).nodes =
      Function.update (Function.update s.nodes halves.right.rrn (some halves.right)) p
        (some halves.left) := rfl

theorem placeKey_full {new : Rrn} {halves : Halves} (full : ¬(s.read p).keysNum < order - 1)
    (taken : (getFreeRrn s.freeRrn).1 = new)
    (cut : splitNode order (s.read p) k (rChild.map fun child => (s.read child).rrn) new =
      halves) :
    placeKey residentPager order held s p k rChild pos promoted =
      if new = noRrn then (s.take, .status .errorIo, promoted)
      else if s.ioFails s.writes then
        ((storeHalves s p halves).wrote.drop new, .status .errorIo, promoted)
      else if s.ioFails (s.writes + 1) then
        ((storeHalves s p halves).wrote.wrote.drop new, .status .errorIo, promoted)
      else ((storeHalves s p halves).wrote.wrote, .promotion halves.promoKey new, true) := by
  have name : halves.right.rrn = new := by rw [← cut, splitNode_right_rrn]
  simp only [placeKey, residentPager_node, full, ↓reduceIte, split, residentPager_getFreeRrn,
    read_take, residentPager_alloc, taken, cut, name, residentPager_setNode, residentPager_write,
    storeHalves]
  by_cases missing : new = noRrn
  · simp [missing]
  by_cases first : s.ioFails s.writes
  · simp [missing, first]
  by_cases second : s.ioFails (s.writes + 1)
  · simp [missing, first, second]
  · simp [missing, first, second]

theorem placeKey_drew : ∃ count,
    Drew s (placeKey residentPager order held s p k rChild pos promoted).1 count := by
  by_cases room : (s.read p).keysNum < order - 1
  · rw [placeKey_room room]
    exact ⟨0, Drew.none rfl rfl⟩
  · rw [placeKey_full room rfl rfl]
    refine ⟨1, ?_⟩
    split_ifs <;> exact Drew.one rfl rfl

end Place

section Step

variable {order fuel : Nat} {root : Option Rrn} {held : List Rrn} {s : Resident} {p : Rrn}
  {k : Key} {promoted : Bool}

theorem insertKey_found (found : (searchInBtreeNode (s.read p) k.id).1 = .foundKey) :
    insertKey residentPager order root (fuel + 1) held s p k promoted =
      (s, .status .errorDuplicate, promoted) := by
  simp [insertKey, found]

theorem insertKey_leaf (new : (searchInBtreeNode (s.read p) k.id).1 ≠ .foundKey)
    (leaf : (s.read p).leaf = true) :
    insertKey residentPager order root (fuel + 1) held s p k promoted =
      placeKey residentPager order held s p k none (searchInBtreeNode (s.read p) k.id).2
        promoted := by
  simp [insertKey, new, leaf]

/-- The end of `insert_key` in a branch, after the recursive call. -/
def insertAbove (order : Nat) (held : List Rrn) (p child : Rrn) (pos : Nat)
    (below : InsertResult Resident Rrn) : InsertResult Resident Rrn :=
  match below.2.1 with
  | .status status => (below.1, .status status, below.2.2)
  | .promotion promoKey tempChild =>
      placeKey residentPager order (child :: held) below.1 p promoKey (some tempChild) pos below.2.2

theorem insertAbove_status {order : Nat} {held : List Rrn} {p child : Rrn} {pos : Nat}
    {below : InsertResult Resident Rrn} {status : BtreeStatus}
    (shape : below.2.1 = .status status) : insertAbove order held p child pos below = below := by
  obtain ⟨after, insertion, flag⟩ := below
  cases shape
  rfl

theorem insertAbove_promotion {order : Nat} {held : List Rrn} {p child new : Rrn} {pos : Nat}
    {below : InsertResult Resident Rrn} {promoKey : Key} {flag : Bool}
    (shape : below.2 = (.promotion promoKey new, flag)) :
    insertAbove order held p child pos below =
      placeKey residentPager order (child :: held) below.1 p promoKey (some new) pos flag := by
  obtain ⟨after, insertion, flag⟩ := below
  cases shape
  rfl

theorem insertKey_branch (new : (searchInBtreeNode (s.read p) k.id).1 ≠ .foundKey)
    (branch : (s.read p).leaf = false) {child : Rrn}
    (slot : (s.read p).child (searchInBtreeNode (s.read p) k.id).2 = child)
    (loaded : (s.nodes child).isSome) :
    insertKey residentPager order root (fuel + 1) held s p k promoted =
      insertAbove order held p child (searchInBtreeNode (s.read p) k.id).2
        (insertKey residentPager order root fuel (p :: held) s child k promoted) := by
  simp only [insertKey, residentPager_node, new, branch, slot, residentPager_load, loaded,
    dropUncached_resident, Bool.false_eq_true, ↓reduceIte]
  obtain ⟨after, insertion, flag⟩ :=
    insertKey residentPager order root fuel (p :: held) s child k promoted
  cases insertion <;> rfl

theorem insertKey_missing (new : (searchInBtreeNode (s.read p) k.id).1 ≠ .foundKey)
    (branch : (s.read p).leaf = false)
    (missing : ¬(s.nodes ((s.read p).child (searchInBtreeNode (s.read p) k.id).2)).isSome) :
    insertKey residentPager order root (fuel + 1) held s p k promoted =
      (s, .status .errorIo, promoted) := by
  simp [insertKey, new, branch, missing]

theorem insertAbove_drew (child : Rrn) (pos : Nat) (below : InsertResult Resident Rrn) :
    ∃ count, Drew below.1 (insertAbove order held p child pos below).1 count := by
  rw [insertAbove]
  split
  · exact ⟨0, Drew.none rfl rfl⟩
  · exact placeKey_drew

theorem insertKey_drew : ∃ count,
    Drew s (insertKey residentPager order root fuel held s p k promoted).1 count := by
  induction fuel generalizing held s p promoted with
  | zero => exact ⟨0, Drew.none rfl rfl⟩
  | succ fuel ih =>
      by_cases found : (searchInBtreeNode (s.read p) k.id).1 = .foundKey
      · rw [insertKey_found found]
        exact ⟨0, Drew.none rfl rfl⟩
      by_cases leaf : (s.read p).leaf = true
      · rw [insertKey_leaf found leaf]
        exact placeKey_drew
      have branch : (s.read p).leaf = false := by simpa using leaf
      by_cases loaded :
          (s.nodes ((s.read p).child (searchInBtreeNode (s.read p) k.id).2)).isSome
      · rw [insertKey_branch found branch rfl loaded]
        obtain ⟨count, below⟩ := @ih (p :: held) s _ promoted
        obtain ⟨more, above⟩ := insertAbove_drew _ _ _
        exact ⟨count + more, below.trans above⟩
      · rw [insertKey_missing found branch loaded]
        exact ⟨0, Drew.none rfl rfl⟩

end Step

/-- Record numbers of nodes: pairwise distinct and none of them the mark of a missing node. -/
def DistinctRrns (rrns : List Rrn) : Prop := rrns.Nodup ∧ noRrn ∉ rrns

instance (rrns : List Rrn) : Decidable (DistinctRrns rrns) :=
  inferInstanceAs (Decidable (rrns.Nodup ∧ noRrn ∉ rrns))

theorem DistinctRrns.of_append {front back : List Rrn} (distinct : DistinctRrns (front ++ back)) :
    DistinctRrns front :=
  ⟨distinct.1.of_append_left, fun member => distinct.2 (List.mem_append_left _ member)⟩

inductive InsertPost (order : Nat) (k : Key) (height : Nat) (tree : Tree Rrn Key height)
    (s : Resident) : InsertResult Resident Rrn → Prop
  | duplicate (promoted : Bool) (meets : Meets Key.id k.id height tree) :
      InsertPost order k height tree s (s, .status .errorDuplicate, promoted)
  | done {after : Resident} {grown : Tree Rrn Key height} {fresh : List Rrn}
      (inserts : Inserts Key.id order k height tree (.whole grown) fresh)
      (represents : Represents after.nodes height grown)
      (changes : Changes s after (labels height tree) fresh)
      (writes : after.writes = s.writes + (2 * fresh.length + 1))
      (written : ∀ n < 2 * fresh.length + 1, s.ioFails (s.writes + n) = false) :
      InsertPost order k height tree s (after, .status .success, false)
  | promoted {after : Resident} {left right : Tree Rrn Key height} {separator : Key}
      {fresh : List Rrn}
      (inserts : Inserts Key.id order k height tree (.halves left separator right) fresh)
      (low : Represents after.nodes height left) (high : Represents after.nodes height right)
      (changes : Changes s after (labels height tree) fresh)
      (writes : after.writes = s.writes + 2 * fresh.length)
      (written : ∀ n < 2 * fresh.length, s.ioFails (s.writes + n) = false) :
      InsertPost order k height tree s (after, .promotion separator (label height right), true)
  | failed {after : Resident} {rest : Tree Rrn Key height} {fresh : List Rrn} {n : Nat}
      (promoted : Bool) (stops : Stops Key.id order k height tree rest n)
      (represents : Represents after.nodes height rest)
      (changes : Changes s after (labels height tree) fresh)
      (written : ∀ m < n, s.ioFails (s.writes + m) = false)
      (failed : s.ioFails (s.writes + n) = true) :
      InsertPost order k height tree s (after, .status .errorIo, promoted)

section Refines

variable {order least height : Nat} {held : List Rrn} {s : Resident} {k : Key} {promoted : Bool}

theorem placeKey_full_created {pos : Nat} {p : Rrn} {rChild : Option Rrn}
    (full : ¬(s.read p).keysNum < order - 1) :
    (placeKey residentPager order held s p k rChild pos promoted).1.created =
      s.created ++ [(getFreeRrn s.freeRrn).1] := by
  rw [placeKey_full full rfl rfl]
  split_ifs <;> rfl

theorem exists_cut {α : Type} (items : List α) (position : Nat) (bound : position < items.length) :
    ∃ left middle right, items = left ++ middle :: right ∧ left.length = position :=
  ⟨items.take position, items[position], items.drop (position + 1), by simp, by simp; omega⟩

theorem room_post {tree grown : Tree Rrn Key height} {middle : Resident} {fresh : List Rrn}
    {p : Rrn} {node : BtreeNode}
    (inserts : Inserts Key.id order k height tree (.whole grown) fresh)
    (changes : Changes s middle (labels height tree) fresh)
    (writes : middle.writes = s.writes + 2 * fresh.length)
    (written : ∀ n < 2 * fresh.length, s.ioFails (s.writes + n) = false)
    (inside : p ∈ labels height tree)
    (represents : Represents (middle.store p node).nodes height grown) :
    InsertPost order k height tree s ((middle.store p node).wrote,
      .status (if middle.ioFails middle.writes then .errorIo else .success), false) := by
  have after : Changes s (middle.store p node).wrote (labels height tree) fresh := by
    refine ⟨fun rrn outside new => ?_, changes.created, changes.ioFails⟩
    have different : rrn ≠ p := fun same => outside (same ▸ inside)
    simp [different, changes.nodes rrn outside new]
  rw [changes.ioFails, writes]
  by_cases fails : s.ioFails (s.writes + 2 * fresh.length)
  · rw [if_pos fails]
    exact .failed false (.whole inserts) represents after written fails
  · rw [if_neg fails]
    refine .done inserts represents after (by simp [writes, Nat.add_assoc]) fun n bound => ?_
    rcases Nat.lt_succ_iff_lt_or_eq.mp bound with earlier | rfl
    · exact written n earlier
    · simpa using fails

theorem split_post {tree left right : Tree Rrn Key height} {middle : Resident}
    {fresh : List Rrn} {p new : Rrn} {halves : Halves}
    (inserts : Inserts Key.id order k height tree (.halves left halves.promoKey right)
      (fresh ++ [new]))
    (root : label height right = new) (name : halves.right.rrn = new)
    (changes : Changes s middle (labels height tree) fresh)
    (taken : (getFreeRrn middle.freeRrn).1 = new)
    (writes : middle.writes = s.writes + 2 * fresh.length)
    (written : ∀ n < 2 * fresh.length, s.ioFails (s.writes + n) = false)
    (inside : p ∈ labels height tree) (outside : new ∉ labels height left)
    (low : Represents (storeHalves middle p halves).nodes height left)
    (high : Represents (storeHalves middle p halves).nodes height right) :
    InsertPost order k height tree s
      (if middle.ioFails middle.writes then
        ((storeHalves middle p halves).wrote.drop (new), .status .errorIo, promoted)
      else if middle.ioFails (middle.writes + 1) then
        ((storeHalves middle p halves).wrote.wrote.drop (new),
          .status .errorIo, promoted)
      else
        ((storeHalves middle p halves).wrote.wrote,
          .promotion halves.promoKey (new), true)) := by
  have kept : ∀ rrn, rrn ∉ labels height tree → rrn ∉ fresh ++ [new] →
      (storeHalves middle p halves).nodes rrn = s.nodes rrn := by
    intro rrn old other
    simp only [List.mem_append, List.mem_singleton, not_or] at other
    have different : rrn ≠ p := fun same => old (same ▸ inside)
    simp [storeHalves, different, name, other.2, changes.nodes rrn old other.1]
  have created : (storeHalves middle p halves).created =
      s.created ++ (fresh ++ [new]) := by
    simp [storeHalves, changes.created, taken]
  have lost : ∀ after : Resident, after.nodes = (storeHalves middle p halves).nodes →
      Represents (after.drop (new)).nodes height left := by
    intro after same
    refine low.frame fun rrn member => ?_
    have different : rrn ≠ new := fun equal => outside (equal ▸ member)
    simp [same, different]
  have dropped : ∀ after : Resident, after.nodes = (storeHalves middle p halves).nodes →
      after.created = (storeHalves middle p halves).created → after.ioFails = middle.ioFails →
      Changes s (after.drop (new)) (labels height tree)
        (fresh ++ [new]) := by
    intro after same sameCreated sameFails
    refine ⟨fun rrn old other => ?_, sameCreated.trans created, sameFails.trans changes.ioFails⟩
    have different : rrn ≠ new := fun equal => other (by simp [equal])
    simp [same, different, kept rrn old other]
  subst root
  rw [changes.ioFails, writes]
  by_cases first : s.ioFails (s.writes + 2 * fresh.length)
  · rw [if_pos first]
    exact .failed promoted (.cut inserts (Or.inl (by simp; omega))) (lost _ rfl)
      (dropped _ rfl rfl rfl) written first
  have firstWritten : ∀ n < 2 * fresh.length + 1, s.ioFails (s.writes + n) = false := by
    intro n bound
    rcases Nat.lt_succ_iff_lt_or_eq.mp bound with earlier | rfl
    · exact written n earlier
    · simpa using first
  by_cases second : s.ioFails (s.writes + 2 * fresh.length + 1)
  · rw [if_neg first, if_pos second]
    exact .failed promoted (.cut inserts (Or.inr (by simp; omega))) (lost _ rfl)
      (dropped _ rfl rfl rfl) firstWritten second
  · rw [if_neg first, if_neg second]
    refine .promoted inserts low high ⟨kept, created, changes.ioFails⟩ ?_ fun n bound => ?_
    · simp [storeHalves, writes]
      omega
    · rw [List.length_append, List.length_singleton, Nat.mul_add] at bound
      rcases Nat.lt_succ_iff_lt_or_eq.mp bound with earlier | rfl
      · exact firstWritten n earlier
      · simpa [Nat.add_assoc] using second

theorem placeKey_leaf {tree : Tree Rrn Key 0} {before after : List Key} (three : 3 ≤ order)
    (stored : Growable order least s 0 tree) (split : Leaf.records tree = before ++ after)
    (lower : ∀ key ∈ before, key.id < k.id) (upper : ∀ key ∈ after, k.id < key.id)
    (fresh : DistinctRrns (placeKey residentPager order held s (label 0 tree) k none before.length
      promoted).1.created) :
    InsertPost order k 0 tree s
      (placeKey residentPager order held s (label 0 tree) k none before.length promoted) := by
  have read := stored.represents.leaf
  have filled := stored.filled
  obtain ⟨name, records, next⟩ := tree
  simp only [leafNode] at split read
  subst split
  simp only [Filled] at filled
  have count : (s.read name).keysNum = (before ++ after).length := by
    rw [read, BtreeNode.keysNum]
  simp only [label] at fresh ⊢
  by_cases room : (s.read name).keysNum < order - 1
  · rw [placeKey_room room]
    have inserts : Inserts Key.id order k 0 (Leaf.mk name (before ++ after) next)
        (.whole (Leaf.mk name (before ++ k :: after) next)) [] :=
      .leafRoom lower upper (count ▸ room)
    refine room_post inserts (Changes.refl s _) rfl (by simp) (by simp [labels]) ?_
    simp [Represents, leafNode, insertInBtreeNode, read]
  · rw [placeKey_full_created room] at fresh
    obtain ⟨new, taken⟩ : ∃ new, (getFreeRrn s.freeRrn).1 = new := ⟨_, rfl⟩
    rw [taken] at fresh
    have present : new ≠ noRrn := fun same => fresh.2 (by simp [same])
    have different : new ≠ name := by
      rintro rfl
      have outside := (List.nodup_append.mp fresh.1).2.2 new (stored.created new (by simp [labels]))
      exact outside new (by simp) rfl
    have full : order - 1 ≤ (before ++ after).length := count ▸ not_lt.mp room
    have whole : (before ++ k :: after).length = order := by
      simp only [List.length_append, List.length_cons] at filled full ⊢
      omega
    obtain ⟨left, middle, right, cut, half⟩ :=
      exists_cut (before ++ k :: after) ((order - 1) / 2 + 1) (by omega)
    have inserts : Inserts Key.id order k 0 (Leaf.mk name (before ++ after) next)
        (.halves (Leaf.mk name left new) middle (Leaf.mk new (middle :: right) next))
          ([] ++ [new]) :=
      .leafSplit lower upper full cut half
    rw [placeKey_full room taken
      (splitNode_leaf (by rw [read]) (by rw [read]) lower upper whole cut half), if_neg present]
    refine split_post inserts rfl rfl (Changes.refl s _) taken rfl (by simp) (by simp [labels])
      (by simpa [labels] using different) ?_ ?_
    · simp [Represents, leafNode, storeHalves, read]
    · simp [Represents, leafNode, storeHalves, read, different]

theorem Represents.around {name : Rrn} {before : List (Tree Rrn Key height × Key)}
    {child : Tree Rrn Key height} {after : List (Key × Tree Rrn Key height)} {middle : Resident}
    {fresh : List Rrn}
    (represents : Represents s.nodes (height + 1) (Branch.plug name before child after))
    (changes : Changes s middle (labels height child) fresh)
    (distinct : (labels (height + 1) (Branch.plug name before child after) ++ fresh).Nodup) :
    middle.nodes name = s.nodes name ∧
      (∀ pair ∈ before, Represents middle.nodes height pair.1) ∧
      ∀ pair ∈ after, Represents middle.nodes height pair.2 := by
  have separate := (List.nodup_append.mp distinct).2.2
  have whole := (List.nodup_append.mp distinct).1
  rw [labels_plug, List.nodup_cons, List.nodup_append, List.nodup_append] at whole
  rw [labels_plug] at separate
  have kept : ∀ rrn ∈ labels (height + 1) (Branch.plug name before child after),
      rrn ∉ labels height child → middle.nodes rrn = s.nodes rrn := by
    intro rrn listed outside
    rw [labels_plug] at listed
    exact changes.nodes rrn outside fun new => separate rrn listed rrn new rfl
  rw [labels_plug] at kept
  refine ⟨kept name (by simp) fun member => whole.1 (by simp [member]), ?_, ?_⟩
  · intro pair member
    have inside := represents.2 pair.1 (by simp; exact Or.inl ⟨pair.2, member⟩)
    refine inside.frame fun rrn listed => ?_
    have front : rrn ∈ (before.map Prod.fst).flatMap (labels height) :=
      List.mem_flatMap.mpr ⟨pair.1, List.mem_map.mpr ⟨pair, member, rfl⟩, listed⟩
    refine kept rrn (by simp only [List.mem_cons, List.mem_append, front]; tauto) fun below => ?_
    exact whole.2.2.2 rrn front rrn (List.mem_append_left _ below) rfl
  · intro pair member
    have inside := represents.2 pair.2 (by simp; exact Or.inr (Or.inr ⟨pair.1, member⟩))
    refine inside.frame fun rrn listed => ?_
    have back : rrn ∈ (after.map Prod.snd).flatMap (labels height) :=
      List.mem_flatMap.mpr ⟨pair.2, List.mem_map.mpr ⟨pair, member, rfl⟩, listed⟩
    refine kept rrn (by simp only [List.mem_cons, List.mem_append, back]; tauto) fun below => ?_
    exact whole.2.2.1.2.2 rrn below rrn back rfl

theorem represents_branch (nodes : Rrn → Option BtreeNode) {changed : Rrn → Option BtreeNode}
    {branch : Branch Rrn Key (Tree Rrn Key height)} (next : Rrn)
    (root : changed branch.label = some (branchNode next branch))
    (children : ∀ child ∈ branch.children, Represents nodes height child)
    (same : ∀ child ∈ branch.children, ∀ rrn ∈ labels height child, changed rrn = nodes rrn) :
    Represents changed (height + 1) branch :=
  ⟨⟨next, root⟩, fun child member => (children child member).frame (same child member)⟩

theorem Represents.replace {name : Rrn} {before : List (Tree Rrn Key height × Key)}
    {child grown : Tree Rrn Key height} {after : List (Key × Tree Rrn Key height)}
    {middle : Resident} {fresh : List Rrn}
    (represents : Represents s.nodes (height + 1) (Branch.plug name before child after))
    (changes : Changes s middle (labels height child) fresh)
    (distinct : (labels (height + 1) (Branch.plug name before child after) ++ fresh).Nodup)
    (inside : Represents middle.nodes height grown)
    (same : label height grown = label height child) :
    Represents middle.nodes (height + 1) (Branch.plug name before grown after) := by
  obtain ⟨root, front, back⟩ := represents.around changes distinct
  obtain ⟨next, found⟩ := represents.1
  refine ⟨⟨next, ?_⟩, ?_⟩
  · simpa [branchNode, root, same] using found
  · simp only [Branch.plug_children, List.mem_append, List.mem_cons, List.mem_map]
    rintro other (⟨pair, member, rfl⟩ | rfl | ⟨pair, member, rfl⟩)
    · exact front pair member
    · exact inside
    · exact back pair member

theorem Growable.separate {tree : Tree Rrn Key height} {fresh : List Rrn}
    (stored : Growable order least s height tree) (distinct : DistinctRrns (s.created ++ fresh)) :
    (labels height tree ++ fresh).Nodup := by
  have parts := List.nodup_append.mp distinct.1
  rw [List.nodup_append]
  exact ⟨stored.distinct, parts.2.1, fun rrn member => parts.2.2 rrn (stored.created rrn member)⟩

section Above

variable {name : Rrn} {before : List (Tree Rrn Key height × Key)} {child : Tree Rrn Key height}
  {after : List (Key × Tree Rrn Key height)}

theorem plug_halves_strict {left right : Tree Rrn Key height} {separator : Key}
    {fresh : List Rrn} (three : 3 ≤ order)
    (stored : Growable order least s (height + 1) (Branch.plug name before child after))
    (lower : ∀ pair ∈ before, pair.2.id < k.id) (upper : ∀ pair ∈ after, k.id < pair.1.id)
    (inserts : Inserts Key.id order k height child (.halves left separator right) fresh) :
    (∀ key ∈ before.map Prod.snd, key.id < separator.id) ∧
      ∀ key ∈ after.map Prod.fst, separator.id < key.id := by
  have lists := lists_plug_halves stored.inOrder lower upper
    (inserts.lists (plug_child_inOrder stored.inOrder))
  have halves := inserts.filled Key.id (stored.filled.2 child (by simp))
  have inside := filled_plug_halves separator stored.filled halves
  have populated : Populated (height + 1)
      (Branch.plug name before left ((separator, right) :: after)) :=
    .of_children fun inner member => (inside inner member).populated (by omega)
  have strict := (SearchTree.of_inOrder Key.id (lists.inOrder stored.inOrder) populated).1
  rw [Branch.plug_separators, List.map_cons, List.pairwise_append, List.pairwise_cons] at strict
  exact ⟨fun key member => strict.2.2 key member separator (by simp), strict.2.1.1⟩

theorem insertInBtreeNode_plug (next : Rrn) {left right : Tree Rrn Key height} (separator : Key)
    (same : label height left = label height child) :
    insertInBtreeNode (branchNode next (Branch.plug name before child after)) separator
        (some (label height right)) before.length =
      branchNode next (Branch.plug name before left ((separator, right) :: after)) := by
  have keys : openSlot (before.map Prod.snd ++ after.map Prod.fst) before.length separator =
      before.map Prod.snd ++ separator :: after.map Prod.fst :=
    openSlot_of_length separator (by simp)
  have children : openSlot ((before.map (label height ∘ Prod.fst) ++ [label height child]) ++
      after.map (label height ∘ Prod.snd)) (before.length + 1) (label height right) =
      (before.map (label height ∘ Prod.fst) ++ [label height child]) ++
        label height right :: after.map (label height ∘ Prod.snd) :=
    openSlot_of_length _ (by simp)
  simp only [List.append_assoc, List.cons_append, List.nil_append] at children
  simp [insertInBtreeNode, branchNode, keys, children, same]

theorem splitNode_plug (next new : Rrn) {left right first middleChild : Tree Rrn Key height}
    {separator promo : Key} {lowRest highRest : List (Key × Tree Rrn Key height)}
    (same : label height left = label height child)
    (strict : (∀ key ∈ before.map Prod.snd, key.id < separator.id) ∧
      ∀ key ∈ after.map Prod.fst, separator.id < key.id)
    (count : before.length + (after.length + 1) = order)
    (cut : Branch.plug name before left ((separator, right) :: after) =
      Branch.mk name first (lowRest ++ (promo, middleChild) :: highRest))
    (half : lowRest.length = (order - 1) / 2) :
    splitNode order (branchNode next (Branch.plug name before child after)) separator
        (some (label height right)) new =
      { left := branchNode next (Branch.mk name first lowRest)
        promoKey := promo
        right := branchNode noRrn (Branch.mk new middleChild highRest) } := by
  have keys : (branchNode next (Branch.plug name before child after)).keys =
      before.map Prod.snd ++ after.map Prod.fst := by
    rw [branchNode, Branch.plug_separators]
  have children : (branchNode next (Branch.plug name before child after)).children =
      (before.map (label height ∘ Prod.fst) ++ [label height left]) ++
        after.map (label height ∘ Prod.snd) := by
    simp [branchNode, same]
  have whole : (before.map Prod.snd ++ separator :: after.map Prod.fst).length = order := by
    simpa using count
  have cutKeys := congrArg Branch.separators cut
  rw [Branch.plug_separators] at cutKeys
  simp only [Branch.separators, List.map_append, List.map_cons] at cutKeys
  have cutChildren := congrArg (List.map (label height)) (cut_children name new cut)
  rw [splitNode_branch rfl keys children (by simp) strict.1 strict.2 whole cutKeys
    (by simpa using half) (by simpa using cutChildren.symm) (by simp [Branch.children])
    (by simp [Branch.children])]
  simp [branchNode, Branch.separators]

section Promoted

variable {middle : Resident} {fresh : List Rrn} {left right : Tree Rrn Key height}
  {separator : Key} {next : Rrn}

theorem around_halves
    (stored : Growable order least s (height + 1) (Branch.plug name before child after))
    (inserts : Inserts Key.id order k height child (.halves left separator right) fresh)
    (low : Represents middle.nodes height left) (high : Represents middle.nodes height right)
    (changes : Changes s middle (labels height child) fresh)
    (distinct : DistinctRrns (s.created ++ fresh)) :
    (∃ next, middle.read name = branchNode next (Branch.plug name before child after)) ∧
      ∀ inner ∈ (Branch.plug name before left ((separator, right) :: after)).children,
        Represents middle.nodes height inner ∧ ∀ rrn ∈ labels height inner, rrn ≠ name := by
  have separate := stored.separate distinct
  obtain ⟨root, front, back⟩ := stored.represents.around changes separate
  obtain ⟨next, found⟩ := stored.represents.1
  rw [Branch.plug_label] at found
  refine ⟨⟨next, by simp [Resident.read, root, found]⟩, fun inner member => ⟨?_, ?_⟩⟩
  · simp only [Branch.plug_children, List.mem_append, List.mem_cons, List.mem_map] at member
    rcases member with ⟨pair, member, rfl⟩ | rfl | ⟨pair, rfl | member, rfl⟩
    · exact front pair member
    · exact low
    · exact high
    · exact back pair member
  · rintro rrn listed rfl
    have permuted := labels_plug_halves rrn before separator after inserts.labels
    have outside := (List.nodup_cons.mp (permuted.nodup_iff.mpr separate)).1
    rw [Branch.plug_label] at outside
    exact outside (List.mem_flatMap.mpr ⟨inner, member, listed⟩)

theorem Changes.widen (changes : Changes s middle (labels height child) fresh) :
    Changes s middle (labels (height + 1) (Branch.plug name before child after)) fresh := by
  refine changes.weaken fun rrn member => ?_
  rw [labels_plug]
  simp [member]

theorem keysNum_plug
    (read : middle.read name = branchNode next (Branch.plug name before child after)) :
    (middle.read name).keysNum = before.length + after.length := by
  simp [read, BtreeNode.keysNum, branchNode]

theorem placeKey_branch_room (lower : ∀ pair ∈ before, pair.2.id < k.id)
    (upper : ∀ pair ∈ after, k.id < pair.1.id)
    (inserts : Inserts Key.id order k height child (.halves left separator right) fresh)
    (changes : Changes s middle (labels height child) fresh)
    (writes : middle.writes = s.writes + 2 * fresh.length)
    (written : ∀ n < 2 * fresh.length, s.ioFails (s.writes + n) = false)
    (read : middle.read name = branchNode next (Branch.plug name before child after))
    (children : ∀ inner ∈ (Branch.plug name before left ((separator, right) :: after)).children,
      Represents middle.nodes height inner ∧ ∀ rrn ∈ labels height inner, rrn ≠ name)
    (named : (middle.read (label height right)).rrn = label height right)
    (room : (middle.read name).keysNum < order - 1) :
    InsertPost order k (height + 1) (Branch.plug name before child after) s
      (placeKey residentPager order held middle name separator (some (label height right))
        before.length promoted) := by
  rw [placeKey_room room, read, Option.map_some, named, insertInBtreeNode_plug next _ inserts.label]
  have stored : (middle.store name (branchNode next
      (Branch.plug name before left ((separator, right) :: after)))).nodes
        (Branch.plug name before left ((separator, right) :: after)).label =
      some (branchNode next (Branch.plug name before left ((separator, right) :: after))) := by
    simp
  refine room_post (.branchRoom lower upper inserts (keysNum_plug read ▸ room)) changes.widen writes
    written (by simp [labels_plug])
    (represents_branch _ next stored (fun inner member => (children inner member).1) ?_)
  intro inner member rrn listed
  simp [(children inner member).2 rrn listed]

theorem exists_branch_cut (full : order - 1 ≤ before.length + after.length) :
    ∃ first lowRest promo middleChild highRest,
      Branch.plug name before left ((separator, right) :: after) =
        Branch.mk name first (lowRest ++ (promo, middleChild) :: highRest) ∧
      lowRest.length = (order - 1) / 2 := by
  obtain ⟨first, rest, mid⟩ : ∃ first rest,
      Branch.plug name before left ((separator, right) :: after) = Branch.mk name first rest :=
    ⟨_, _, by rw [Branch.mk.injEq]; exact ⟨Branch.plug_label .., rfl, rfl⟩⟩
  have length := congrArg (fun branch => branch.rest.length) mid
  simp only [Branch.plug_rest_length, List.length_cons] at length
  obtain ⟨lowRest, ⟨promo, middleChild⟩, highRest, rfl, half⟩ :=
    exists_cut rest ((order - 1) / 2) (by omega)
  exact ⟨first, lowRest, promo, middleChild, highRest, mid, half⟩

theorem placeKey_branch_full (three : 3 ≤ order)
    (stored : Growable order least s (height + 1) (Branch.plug name before child after))
    (lower : ∀ pair ∈ before, pair.2.id < k.id) (upper : ∀ pair ∈ after, k.id < pair.1.id)
    (inserts : Inserts Key.id order k height child (.halves left separator right) fresh)
    (changes : Changes s middle (labels height child) fresh)
    (writes : middle.writes = s.writes + 2 * fresh.length)
    (written : ∀ n < 2 * fresh.length, s.ioFails (s.writes + n) = false)
    (read : middle.read name = branchNode next (Branch.plug name before child after))
    (children : ∀ inner ∈ (Branch.plug name before left ((separator, right) :: after)).children,
      Represents middle.nodes height inner ∧ ∀ rrn ∈ labels height inner, rrn ≠ name)
    (named : (middle.read (label height right)).rrn = label height right)
    (room : ¬(middle.read name).keysNum < order - 1)
    (distinct : DistinctRrns (placeKey residentPager order held middle name separator
      (some (label height right)) before.length promoted).1.created) :
    InsertPost order k (height + 1) (Branch.plug name before child after) s
      (placeKey residentPager order held middle name separator (some (label height right))
        before.length promoted) := by
  rw [placeKey_full_created room] at distinct
  obtain ⟨new, taken⟩ : ∃ new, (getFreeRrn middle.freeRrn).1 = new := ⟨_, rfl⟩
  rw [taken, changes.created, List.append_assoc] at distinct
  have present : new ≠ noRrn := fun same => distinct.2 (by simp [same])
  have permuted := labels_plug_halves name before separator after inserts.labels
  have newApart : new ∉ labels (height + 1)
      (Branch.plug name before left ((separator, right) :: after)) := by
    have all := stored.separate distinct
    rw [← List.append_assoc, List.nodup_append] at all
    exact fun member => all.2.2 new (permuted.mem_iff.mp member) new (by simp) rfl
  have full : order - 1 ≤ before.length + after.length := keysNum_plug read ▸ not_lt.mp room
  have filled := stored.filled.1
  rw [Branch.plug_rest_length] at filled
  obtain ⟨first, lowRest, promo, middleChild, highRest, mid, half⟩ :
      ∃ first lowRest promo middleChild highRest,
        Branch.plug name before left ((separator, right) :: after) =
          Branch.mk name first (lowRest ++ (promo, middleChild) :: highRest) ∧
        lowRest.length = (order - 1) / 2 := exists_branch_cut full
  have strict := plug_halves_strict three stored lower upper inserts
  have whole : before.length + (after.length + 1) = order := by omega
  have halves := splitNode_plug next new inserts.label strict whole mid half
  rw [← read, ← named] at halves
  have different : new ≠ name := fun same => newApart (by rw [same, labels_plug]; simp)
  have kept : ∀ inner ∈ (Branch.mk name first lowRest).children ++
      (Branch.mk new middleChild highRest).children, Represents middle.nodes height inner ∧
      ∀ rrn ∈ labels height inner, rrn ≠ name ∧ rrn ≠ new := by
    intro inner member
    rw [cut_children name new mid] at member
    have inMid : inner ∈
        (Branch.plug name before left ((separator, right) :: after)).children := by
      simpa using member
    obtain ⟨held, apart⟩ := children inner inMid
    refine ⟨held, fun rrn listed => ⟨apart rrn listed, ?_⟩⟩
    rintro rfl
    exact newApart (List.mem_cons_of_mem _ (List.mem_flatMap.mpr ⟨inner, inMid, listed⟩))
  have lowKept := fun inner member => kept inner (List.mem_append_left _ member)
  have highKept := fun inner member => kept inner (List.mem_append_right _ member)
  rw [placeKey_full room taken halves, if_neg present]
  refine split_post (.branchSplit lower upper inserts full mid half) rfl rfl changes.widen taken
    writes written (by simp [labels_plug]) ?_ ?_ ?_
  · simp only [labels, List.mem_cons, List.mem_flatMap, not_or, not_exists, not_and]
    exact ⟨different, fun inner member listed => ((lowKept inner member).2 new listed).2 rfl⟩
  · refine represents_branch middle.nodes next (by simp [storeHalves])
      (fun inner member => (lowKept inner member).1) fun inner member rrn listed => ?_
    have other := (lowKept inner member).2 rrn listed
    simp [storeHalves, branchNode, other.1, other.2]
  · refine represents_branch middle.nodes noRrn (by simp [storeHalves, different, branchNode])
      (fun inner member => (highKept inner member).1) fun inner member rrn listed => ?_
    have other := (highKept inner member).2 rrn listed
    simp [storeHalves, branchNode, other.1, other.2]

theorem placeKey_branch (three : 3 ≤ order)
    (stored : Growable order least s (height + 1) (Branch.plug name before child after))
    (lower : ∀ pair ∈ before, pair.2.id < k.id) (upper : ∀ pair ∈ after, k.id < pair.1.id)
    (inserts : Inserts Key.id order k height child (.halves left separator right) fresh)
    (low : Represents middle.nodes height left) (high : Represents middle.nodes height right)
    (changes : Changes s middle (labels height child) fresh)
    (writes : middle.writes = s.writes + 2 * fresh.length)
    (written : ∀ n < 2 * fresh.length, s.ioFails (s.writes + n) = false)
    (distinct : DistinctRrns (placeKey residentPager order held middle name separator
      (some (label height right)) before.length promoted).1.created) :
    InsertPost order k (height + 1) (Branch.plug name before child after) s
      (placeKey residentPager order held middle name separator (some (label height right))
        before.length promoted) := by
  have middleDistinct : DistinctRrns middle.created := by
    have drawn : ∃ count, Drew middle (placeKey residentPager order held middle name separator
        (some (label height right)) before.length promoted).1 count := placeKey_drew
    obtain ⟨count, drew⟩ := drawn
    rw [drew.created] at distinct
    exact distinct.of_append
  rw [changes.created] at middleDistinct
  obtain ⟨⟨next, read⟩, children⟩ := around_halves stored inserts low high changes middleDistinct
  by_cases room : (middle.read name).keysNum < order - 1
  · exact placeKey_branch_room lower upper inserts changes writes written read children high.rrn room
  · exact placeKey_branch_full three stored lower upper inserts changes writes written read children
      high.rrn room distinct

end Promoted

theorem insertAbove_post {below : InsertResult Resident Rrn} (three : 3 ≤ order)
    (stored : Growable order least s (height + 1) (Branch.plug name before child after))
    (lower : ∀ pair ∈ before, pair.2.id < k.id) (upper : ∀ pair ∈ after, k.id < pair.1.id)
    (post : InsertPost order k height child s below)
    (distinct : DistinctRrns
      (insertAbove order held name (label height child) before.length below).1.created) :
    InsertPost order k (height + 1) (Branch.plug name before child after) s
      (insertAbove order held name (label height child) before.length below) := by
  have inside : ∀ rrn ∈ labels height child,
      rrn ∈ labels (height + 1) (Branch.plug name before child after) := by
    intro rrn member
    rw [labels_plug]
    simp [member]
  cases post with
  | duplicate promoted meets =>
      exact .duplicate promoted ((meets_plug Key.id name child lower upper).mpr meets)
  | @done middle grown fresh inserts represents changes writes written =>
      simp only [insertAbove, changes.created] at distinct ⊢
      exact .done (.pass lower upper inserts)
        (stored.represents.replace changes (stored.separate distinct) represents inserts.label)
        (changes.weaken inside) writes written
  | @promoted middle left right separator fresh inserts low high changes writes written =>
      exact placeKey_branch three stored lower upper inserts low high changes writes written
        distinct
  | @failed middle rest fresh n promoted stops represents changes written failed =>
      simp only [insertAbove, changes.created] at distinct ⊢
      exact .failed promoted (.pass lower upper stops)
        (stored.represents.replace changes (stored.separate distinct) represents stops.label)
        (changes.weaken inside) written failed

theorem insertKey_plug {fuel : Nat} {root : Option Rrn}
    (stored : Stored order least s (height + 1) (Branch.plug name before child after))
    (found : searchInBtreeNode (s.read name) k.id = (.notFoundKey, before.length)) :
    insertKey residentPager order root (fuel + 1) held s name k promoted =
      insertAbove order held name (label height child) before.length
        (insertKey residentPager order root fuel (name :: held) s (label height child) k
          promoted) := by
  obtain ⟨branch, slot, loaded⟩ := stored.enter
  have new : (searchInBtreeNode (s.read name) k.id).1 ≠ .foundKey := by simp [found]
  rw [insertKey_branch new branch (by rw [found, slot]) loaded, found]

end Above

theorem insertKey_post {fuel : Nat} {root : Option Rrn} {tree : Tree Rrn Key height}
    (three : 3 ≤ order) (stored : Growable order least s height tree) (deep : height < fuel)
    (distinct : DistinctRrns (insertKey residentPager order root fuel held s (label height tree) k
      promoted).1.created) :
    InsertPost order k height tree s
      (insertKey residentPager order root fuel held s (label height tree) k promoted) := by
  induction height generalizing fuel held least promoted with
  | zero =>
      obtain ⟨fuel, rfl⟩ : ∃ rest, fuel = rest + 1 := ⟨fuel - 1, by omega⟩
      have leaf : (s.read (label 0 tree)).leaf = true := by
        rw [label, stored.represents.leaf, leafNode]
      rcases stored.leaf_search k.id with
        ⟨before, key, after, split, same, found⟩ | ⟨before, after, split, lower, upper, found⟩
      · rw [insertKey_found (by rw [found])]
        exact .duplicate promoted (Or.inr ⟨key, by simp [descend, split], same⟩)
      · have new : (searchInBtreeNode (s.read (label 0 tree)) k.id).1 ≠ .foundKey := by
          simp [found]
        rw [insertKey_leaf new leaf, found] at distinct ⊢
        exact placeKey_leaf three stored split lower upper distinct
  | succ height ih =>
      obtain ⟨fuel, rfl⟩ : ∃ rest, fuel = rest + 1 := ⟨fuel - 1, by omega⟩
      rcases stored.branch_search k.id with
        ⟨separator, member, same, found⟩ | ⟨before, child, after, plugged, lower, upper, found⟩
      · rw [insertKey_found found]
        exact .duplicate promoted (Or.inl (Or.inl ⟨separator, member, same⟩))
      · generalize Branch.label tree = name at plugged
        subst plugged
        simp only [label, Branch.plug_label] at found distinct ⊢
        have inner : Growable order _ s height child := stored.child (by simp)
        rw [insertKey_plug stored.toStored found] at distinct ⊢
        refine insertAbove_post three stored lower upper (ih inner (by omega) ?_) distinct
        obtain ⟨count, above⟩ := insertAbove_drew _ _ _
        rw [above.created] at distinct
        exact distinct.of_append

theorem insertKey_meets {fuel : Nat} {root : Option Rrn} {tree : Tree Rrn Key height}
    (stored : Stored order least s height tree) (deep : height < fuel)
    (meets : Meets Key.id k.id height tree) :
    insertKey residentPager order root fuel held s (label height tree) k promoted =
      (s, .status .errorDuplicate, promoted) := by
  induction height generalizing fuel held least promoted with
  | zero =>
      obtain ⟨fuel, rfl⟩ : ∃ rest, fuel = rest + 1 := ⟨fuel - 1, by omega⟩
      rcases stored.leaf_search k.id with
        ⟨before, key, after, split, same, found⟩ | ⟨before, after, split, lower, upper, found⟩
      · exact insertKey_found (by rw [found])
      · obtain ⟨value, member, same⟩ := meets.resolve_left id
        rw [descend, split, List.mem_append] at member
        rcases member with member | member
        · exact absurd same (ne_of_lt (lower value member))
        · exact absurd same (ne_of_gt (upper value member))
  | succ height ih =>
      obtain ⟨fuel, rfl⟩ : ∃ rest, fuel = rest + 1 := ⟨fuel - 1, by omega⟩
      rcases stored.branch_search k.id with
        ⟨separator, member, same, found⟩ | ⟨before, child, after, plugged, lower, upper, found⟩
      · exact insertKey_found found
      · generalize Branch.label tree = name at plugged
        subst plugged
        simp only [label, Branch.plug_label] at found ⊢
        have inner : Stored order _ s height child := stored.child (by simp)
        rw [insertKey_plug stored found,
          ih inner (by omega) ((meets_plug Key.id name child lower upper).mp meets), insertAbove]

end Refines

end Gaveta
