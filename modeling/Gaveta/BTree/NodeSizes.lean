import Gaveta.BTree.RootRecord
import Gaveta.BTree.SplitArrays
import Gaveta.Config.StaleFields

/-! The sizes of the nodes over the life of a tree, and the splits that find them full. -/

namespace Gaveta

section Node

variable {order : Nat} {node : BtreeNode}

theorem BtreeNode.Sized.of_leaf (leaf : node.leaf = true) (few : node.keysNum ≤ order - 1) :
    node.Sized order :=
  ⟨few, fun branch => by simp [leaf] at branch⟩

theorem insertInBtreeNode_sized {k : Key} {rChild : Option Rrn} (pos : Nat)
    (sized : node.Sized order) (room : node.keysNum < order - 1)
    (given : node.leaf = false → rChild.isSome) :
    (insertInBtreeNode node k rChild pos).Sized order := by
  have keys : (insertInBtreeNode node k rChild pos).keysNum = node.keysNum + 1 :=
    length_openSlot _ _ _
  refine ⟨by omega, fun branch => ?_⟩
  replace branch : node.leaf = false := branch
  obtain ⟨rrn, rfl⟩ := Option.isSome_iff_exists.mp (given branch)
  have children : (insertInBtreeNode node k (some rrn) pos).childNum = node.childNum + 1 := by
    simp only [BtreeNode.childNum, insertInBtreeNode, branch]
    exact length_openSlot _ _ _
  rw [keys, children, sized.children branch]

theorem splitNode_sized {k : Key} {rChild : Option Rrn} {newRrn : Rrn} (two : 2 ≤ order)
    (sized : node.Sized order) (full : order - 1 ≤ node.keysNum) :
    (splitNode order node k rChild newRrn).left.Sized order ∧
      (splitNode order node k rChild newRrn).right.Sized order := by
  have few := sized.keys
  have count : node.keysNum = node.keys.length := rfl
  have keys := length_openSlot node.keys (splitPosition node.keys k.id node.keysNum) k
  rw [splitNode]
  cases leaf : node.leaf with
  | true =>
      refine ⟨.of_leaf rfl ?_, .of_leaf rfl ?_⟩
      · simp only [BtreeNode.keysNum, ↓reduceIte, List.length_take]
        omega
      · simp only [BtreeNode.keysNum, ↓reduceIte, List.length_take]
        omega
  | false =>
      have branch := sized.children leaf
      have childCount : node.childNum = node.children.length := rfl
      have children := length_openSlot node.children
        (splitPosition node.keys k.id node.keysNum + 1)
        (rChild.getD (node.child (splitPosition node.keys k.id node.keysNum + 1)))
      simp only [Bool.false_eq_true, ↓reduceIte]
      refine ⟨⟨?_, fun _ => ?_⟩, ⟨?_, fun _ => ?_⟩⟩
      · simp only [BtreeNode.keysNum, List.length_take]
        omega
      · simp only [BtreeNode.keysNum, BtreeNode.childNum, List.length_take] at *
        omega
      · simp only [BtreeNode.keysNum, List.length_take, List.length_drop]
        omega
      · simp only [BtreeNode.keysNum, BtreeNode.childNum, List.length_take, List.length_drop] at *
        omega

end Node

structure Shaped (order : Nat) (s : NodeCache) : Prop where
  sized : ∀ p, (s.node p).Sized order
  queued : nullPtr ∉ s.gq
  above : nullPtr < s.unused

namespace Shaped

variable {order : Nat} {s : NodeCache} {p : NodePtr} {node : BtreeNode} {held : List NodePtr}

theorem setNode (shaped : Shaped order s) (sized : node.Sized order) :
    Shaped order (s.setNode p node) := by
  refine ⟨fun q => ?_, shaped.queued, shaped.above⟩
  rw [NodeCache.node_setNode]
  split_ifs
  · exact sized
  · exact shaped.sized q

theorem allocBtreeNode (shaped : Shaped order s) (sized : node.Sized order) :
    Shaped order (s.allocBtreeNode node) := by
  refine ⟨fun q => ?_, shaped.queued, Nat.lt_succ_of_lt shaped.above⟩
  rw [NodeCache.node_allocBtreeNode]
  split_ifs
  · exact sized
  · exact shaped.sized q

theorem clearBtreeNode (shaped : Shaped order s) (p : NodePtr) :
    Shaped order (s.clearBtreeNode p) := by
  refine ⟨fun q => ?_, shaped.queued, shaped.above⟩
  by_cases same : q = p
  · subst same
    rw [NodeCache.node, NodeCache.clearBtreeNode_memory, Function.update_self]
    exact .of_leaf rfl (Nat.zero_le _)
  · rw [NodeCache.node_clearBtreeNode s p q same]
    exact shaped.sized q

theorem pushGq (shaped : Shaped order s) (allocated : p ≠ nullPtr) :
    Shaped order (NodeCache.pushGq held s p) := by
  have queued : nullPtr ∉ s.gq ++ [p] := by
    simp [shaped.queued, Ne.symm allocated]
  rw [NodeCache.pushGq]
  dsimp only
  split_ifs
  · rw [NodeCache.evict]
    split
    · exact ⟨shaped.sized, queued, shaped.above⟩
    · rename_i old rest oldest
      have cleared := shaped.clearBtreeNode old
      refine ⟨cleared.sized, fun member => queued ?_, shaped.above⟩
      dsimp only at oldest
      rw [oldest]
      exact List.mem_cons_of_mem _ member
  · exact ⟨shaped.sized, queued, shaped.above⟩

theorem writeIndexRecord (shaped : Shaped order s) (p : NodePtr) :
    Shaped order (s.writeIndexRecord held p).1 := by
  have wrote : Shaped order (s.wrote p) := ⟨shaped.sized, shaped.queued, shaped.above⟩
  rw [NodeCache.writeIndexRecord]
  split_ifs with null
  · exact shaped
  · exact ⟨shaped.sized, shaped.queued, shaped.above⟩
  · split
    · exact wrote
    · exact wrote.pushGq null

theorem loadBtreeNode (shaped : Shaped order s) (held : List NodePtr) (rrn : Rrn) :
    s.loadBtreeNode held rrn = (s, s.searchGq rrn) := by
  rw [NodeCache.loadBtreeNode]
  split
  · rename_i missing
    rw [missing]
  · rename_i bn found
    have notNull : bn ≠ nullPtr := fun null =>
      shaped.queued (null ▸ (NodeCache.searchGq_some found).1)
    rw [if_pos notNull, found]

theorem dropUncached (shaped : Shaped order s) (root : Option NodePtr) (child : NodePtr) :
    Shaped order (dropUncached cachePager root s child) := by
  rw [Gaveta.dropUncached]
  split_ifs
  · exact shaped.clearBtreeNode child
  · exact shaped

section Insert

variable {k : Key} {rChild : Option NodePtr} {promoted : Bool}

theorem getFreeRrn (shaped : Shaped order s) : Shaped order (cachePager.getFreeRrn s).1 :=
  ⟨shaped.sized, shaped.queued, shaped.above⟩

theorem split (shaped : Shaped order s) (two : 2 ≤ order)
    (full : order - 1 ≤ (s.node p).keysNum) :
    Shaped order (split cachePager order held s p k rChild promoted).1 := by
  have taken := shaped.getFreeRrn
  have halves := @splitNode_sized order (s.node p) k
    (rChild.map fun child => (s.node child).rrn) (cachePager.getFreeRrn s).2 two (shaped.sized p)
    full
  have halved := (taken.allocBtreeNode halves.2).setNode (p := p) halves.1
  simp only [Gaveta.split]
  split_ifs
  · exact taken
  · exact (halved.writeIndexRecord _).clearBtreeNode _
  · exact ((halved.writeIndexRecord _).writeIndexRecord _).clearBtreeNode _
  · exact (halved.writeIndexRecord _).writeIndexRecord _

theorem placeKey (shaped : Shaped order s) (two : 2 ≤ order) (pos : Nat)
    (given : (s.node p).leaf = false → rChild.isSome) :
    Shaped order (placeKey cachePager order held s p k rChild pos promoted).1 := by
  rw [Gaveta.placeKey]
  split_ifs with room
  · refine (shaped.setNode ?_).writeIndexRecord _
    exact insertInBtreeNode_sized pos (shaped.sized p) room fun branch => by
      simpa using given branch
  · exact shaped.split two (Nat.le_of_not_lt room)

theorem insertKey (shaped : Shaped order s) (two : 2 ≤ order) (root : Option NodePtr)
    (fuel : Nat) (held : List NodePtr) (p : NodePtr) (k : Key) (promoted : Bool) :
    Shaped order (insertKey cachePager order root fuel held s p k promoted).1 := by
  induction fuel generalizing held s p promoted with
  | zero => exact shaped
  | succ fuel ih =>
      rw [Gaveta.insertKey]
      dsimp only
      split_ifs with _ leaf
      · exact shaped
      · refine shaped.placeKey two _ fun branch => ?_
        have same : (s.node p).leaf = true := leaf
        rw [same] at branch
        cases branch
      · have loaded := shaped.loadBtreeNode (p :: held)
          ((s.node p).child (searchInBtreeNode (s.node p) k.id).2)
        split
        · rename_i missing
          simp only [cachePager] at missing ⊢
          rw [loaded]
          exact shaped
        · rename_i child found
          have below := ih shaped (p :: held) child promoted
          simp only [cachePager] at below ⊢
          rw [loaded]
          have dropped := below.dropUncached root child
          split
          · exact dropped
          · exact dropped.placeKey two _ fun _ => rfl

theorem growRoot (shaped : Shaped order s) (two : 2 ≤ order) (b : CachedTree)
    (root : NodePtr) (promoKey : Key) (rChild : NodePtr) :
    Shaped order (growRoot cachePager b root s promoKey rChild).1.io := by
  have sized : BtreeNode.Sized order
      { keys := [promoKey]
        rrn := (cachePager.getFreeRrn s).2
        children := [(s.node root).rrn, (s.node rChild).rrn]
        nextLeaf := noRrn
        leaf := false } := ⟨Nat.le_sub_of_add_le two, fun _ => rfl⟩
  have grown := shaped.getFreeRrn.allocBtreeNode sized
  simp only [Gaveta.growRoot]
  split_ifs
  · exact (grown.writeIndexRecord _).clearBtreeNode _
  · exact grown.writeIndexRecord _

theorem bInsert {b : CachedTree} (shaped : Shaped order b.io) (two : 2 ≤ order)
    (same : b.config.order = order) (id : CString) (rrn : Rrn) :
    Shaped order (bInsert cachePager b id rrn).1.io := by
  rw [Gaveta.bInsert]
  split
  · refine (shaped.getFreeRrn.allocBtreeNode (.of_leaf rfl ?_)).writeIndexRecord _
    exact Nat.le_sub_of_add_le two
  · rename_i root found
    have inserted := shaped.insertKey two b.root depthLimit [] root
      { id := id, dataRegisterRrn := rrn } false
    rw [same, finishInsert]
    split
    · exact inserted
    · split_ifs
      · exact inserted.growRoot two b root _ _
      · exact inserted

end Insert

section Search

theorem loaded_rrn (shaped : Shaped order s) {rrn : Rrn} {q : NodePtr}
    (found : (cachePager.loadBtreeNode held s rrn).2 = some q) : q ∈ s.gq ∧ (s.node q).rrn = rrn := by
  have load : cachePager.loadBtreeNode held s rrn = (s, s.searchGq rrn) :=
    shaped.loadBtreeNode held rrn
  rw [load] at found
  exact NodeCache.searchGq_some found

theorem loaded_dropUncached (shaped : Shaped order s) (root : Option NodePtr) {rrn : Rrn}
    {q : NodePtr} (found : (cachePager.loadBtreeNode held s rrn).2 = some q) :
    Gaveta.dropUncached cachePager root s q = s := by
  have cached : cachePager.cached s q = true :=
    NodeCache.searchGq_isSome (shaped.loaded_rrn found).1
  rw [Gaveta.dropUncached, if_neg (by simp [cached])]

theorem searchKey (shaped : Shaped order s) (root : Option NodePtr) (fuel : Nat)
    (held : List NodePtr) (p : NodePtr) (id : CString) :
    (searchKey cachePager root fuel held s p id).1 = s := by
  induction fuel generalizing held p with
  | zero => rfl
  | succ fuel ih =>
      have load : ∀ rrn, cachePager.loadBtreeNode (p :: held) s rrn = (s, s.searchGq rrn) :=
        shaped.loadBtreeNode (p :: held)
      rw [Gaveta.searchKey]
      dsimp only
      split_ifs
      · rfl
      · rfl
      · split
        · rw [load]
        · rename_i next found
          rw [load]
          dsimp only
          rw [ih]
          exact shaped.loaded_dropUncached root found

theorem bSearch {b : CachedTree} (shaped : Shaped order b.io) (id : CString) :
    (bSearch cachePager b id).1 = b := by
  rw [Gaveta.bSearch]
  split
  · rfl
  · rename_i root found
    have state := shaped.searchKey b.root depthLimit [] root id
    dsimp only
    rw [state]
    split
    · rfl
    · split_ifs <;> rfl

theorem findBelow {loadRrn : NodeCache → Rrn → NodeCache × Option NodePtr}
    {find : NodeCache → NodePtr → NodeCache × Option NodePtr}
    {drop : NodeCache → NodePtr → NodeCache} (found : NodePtr → Prop)
    (loads : ∀ rrn, (loadRrn s rrn).1 = s)
    (finds : ∀ child, (find s child).1 = s ∧ ∀ parent ∈ (find s child).2, found parent)
    (drops : ∀ rrn, ∀ child ∈ (loadRrn s rrn).2, drop s child = s) (rrns : List Rrn) :
    (findBelow loadRrn find drop s rrns).1 = s ∧
      ∀ parent ∈ (findBelow loadRrn find drop s rrns).2, found parent := by
  induction rrns with
  | nil => exact ⟨rfl, fun parent none => by cases none⟩
  | cons rrn rest ih =>
      rw [Gaveta.findBelow]
      dsimp only
      rw [loads]
      split
      · exact ih
      · rename_i child loaded
        rw [(finds child).1, drops rrn child loaded]
        split
        · rename_i parent result
          refine ⟨rfl, fun other same => ?_⟩
          cases same
          exact (finds child).2 parent result
        · exact ih

theorem findParent (shaped : Shaped order s) (top : NodePtr) (fuel : Nat) (held : List NodePtr)
    (current target : NodePtr) :
    (findParent cachePager top fuel held s current target).1 = s ∧
      ∀ parent ∈ (findParent cachePager top fuel held s current target).2,
        (s.node target).rrn ∈ (s.node parent).children := by
  induction fuel generalizing held current with
  | zero => exact ⟨rfl, fun parent none => by cases none⟩
  | succ fuel ih =>
      rw [Gaveta.findParent]
      split_ifs with _ here
      · exact ⟨rfl, fun parent none => by cases none⟩
      · refine ⟨rfl, fun parent same => ?_⟩
        cases same
        exact here
      · exact ⟨rfl, fun parent none => by cases none⟩
      · refine findBelow (fun parent => (s.node target).rrn ∈ (s.node parent).children)
          (fun rrn => ?_) (fun child => ?_)
          (fun rrn child loaded => shaped.loaded_dropUncached (some top) loaded) _
        · exact congrArg Prod.fst (shaped.loadBtreeNode _ rrn)
        · exact ih (current :: held) child

theorem getSibling (shaped : Shaped order s) (top p : NodePtr) (left : Bool) :
    (getSibling cachePager top s p left).1 = s ∧
      ∀ q ∈ (getSibling cachePager top s p left).2, ∃ parent,
        (s.node p).rrn ∈ (s.node parent).children ∧ (s.node q).rrn ∈ (s.node parent).children := by
  obtain ⟨state, known⟩ :=
    shaped.findParent top depthLimit [p] top p
  have load : ∀ held rrn, (cachePager.loadBtreeNode held s rrn).1 = s := fun held rrn =>
    congrArg Prod.fst (shaped.loadBtreeNode held rrn)
  rw [Gaveta.getSibling]
  dsimp only
  rw [state]
  split
  · exact ⟨rfl, fun q none => by cases none⟩
  · rename_i parent found
    have child := known parent found
    have inside : (s.node parent).children.idxOf (s.node p).rrn < (s.node parent).childNum :=
      List.idxOf_lt_length_of_mem child
    have listed : ∀ slot < (s.node parent).childNum,
        (s.node parent).child slot ∈ (s.node parent).children := by
      intro slot below
      rw [BtreeNode.child, List.getD_eq_getElem?_getD, List.getElem?_eq_getElem below]
      exact List.getElem_mem _
    split_ifs
    · refine ⟨load _ _, fun q loaded => ⟨parent, child, ?_⟩⟩
      rw [(shaped.loaded_rrn loaded).2]
      exact listed _ (Nat.lt_of_le_of_lt (Nat.sub_le _ _) inside)
    · rename_i right
      refine ⟨load _ _, fun q loaded => ⟨parent, child, ?_⟩⟩
      rw [(shaped.loaded_rrn loaded).2]
      exact listed _ right.2
    · exact ⟨rfl, fun q none => by cases none⟩

end Search

end Shaped

def Framed (first s : NodeCache) : Prop :=
  ∀ p, ((s.node p).rrn = (first.node p).rrn ∧ (s.node p).children = (first.node p).children ∧
    (s.node p).leaf = (first.node p).leaf) ∨ s.memory p = none

structure SiblingsAlike (s : NodeCache) : Prop where
  named : ∀ parent, noRrn ∉ (s.node parent).children
  alike : ∀ parent p q, (s.node p).rrn ∈ (s.node parent).children →
    (s.node q).rrn ∈ (s.node parent).children → (s.node p).leaf = (s.node q).leaf

section Frame

variable {first s : NodeCache} {p : NodePtr} {held : List NodePtr}

theorem Framed.setKeys (keys : List Key) (next : Rrn) :
    Framed s (s.setNode p { s.node p with keys := keys, nextLeaf := next }) := by
  intro q
  refine Or.inl ?_
  rw [NodeCache.node_setNode]
  split_ifs with same
  · rw [same]
    exact ⟨rfl, rfl, rfl⟩
  · exact ⟨rfl, rfl, rfl⟩

theorem Framed.writeIndexRecord (s : NodeCache) (held : List NodePtr) (p : NodePtr) :
    Framed s (s.writeIndexRecord held p).1 := by
  have same : ∀ t : NodeCache, t.memory = s.memory → Framed s t := by
    intro t memory q
    refine Or.inl ?_
    rw [NodeCache.node, NodeCache.node, memory]
    exact ⟨rfl, rfl, rfl⟩
  rw [NodeCache.writeIndexRecord]
  split_ifs
  · exact same _ rfl
  · exact same _ rfl
  · split
    · exact same _ rfl
    · rw [NodeCache.pushGq]
      dsimp only
      split_ifs
      · rw [NodeCache.evict]
        split
        · exact same _ rfl
        · rename_i old rest _
          intro q
          by_cases released : q = old
          · exact Or.inr (by simp [released])
          · refine Or.inl ?_
            simp [NodeCache.node, released]
      · exact same _ rfl

theorem Framed.leaf (framed : Framed first s) (leaf : (first.node p).leaf = true) :
    (s.node p).leaf = true := by
  rcases framed p with same | released
  · rw [same.2.2, leaf]
  · rw [NodeCache.node, released, Option.getD_none]

theorem SiblingsAlike.frame (alike : SiblingsAlike first) (framed : Framed first s) :
    SiblingsAlike s := by
  have children : ∀ parent, (s.node parent).children = (first.node parent).children ∨
      (s.node parent).children = [] := by
    intro parent
    refine (framed parent).imp (fun same => same.2.1) fun released => ?_
    rw [NodeCache.node, released, Option.getD_none]
  have child : ∀ parent q, (s.node q).rrn ∈ (s.node parent).children →
      (s.node parent).children = (first.node parent).children ∧
        (s.node q).rrn = (first.node q).rrn ∧ (s.node q).leaf = (first.node q).leaf := by
    intro parent q member
    rcases children parent with same | empty
    · refine ⟨same, ?_⟩
      rcases framed q with kept | released
      · exact ⟨kept.1, kept.2.2⟩
      · have blank : (s.node q).rrn = noRrn := by
          rw [NodeCache.node, released, Option.getD_none]
        rw [blank, same] at member
        exact absurd member (alike.named parent)
    · rw [empty] at member
      cases member
  refine ⟨fun parent member => ?_, fun parent p q left right => ?_⟩
  · rcases children parent with same | empty
    · rw [same] at member
      exact alike.named parent member
    · rw [empty] at member
      cases member
  · obtain ⟨same, leftRrn, leftLeaf⟩ := child parent p left
    obtain ⟨_, rightRrn, rightLeaf⟩ := child parent q right
    rw [same, leftRrn] at left
    rw [same, rightRrn] at right
    rw [leftLeaf, rightLeaf]
    exact alike.alike parent p q left right

end Frame

namespace Shaped

section Remove

variable {order : Nat} {s : NodeCache} {root p : NodePtr}

theorem setKeys (shaped : Shaped order s) {keys : List Key} (next : Rrn)
    (leaf : (s.node p).leaf = true) (few : keys.length ≤ order - 1) :
    Shaped order (s.setNode p { s.node p with keys := keys, nextLeaf := next }) :=
  shaped.setNode (.of_leaf leaf few)

theorem moveKeys (shaped : Shaped order s) {donor receiver : NodePtr} {more fewer : List Key}
    (donorLeaf : (s.node donor).leaf = true) (receiverLeaf : (s.node receiver).leaf = true)
    (grown : more.length ≤ order - 1) (kept : fewer.length ≤ order - 1) :
    let received := s.setNode receiver { s.node receiver with keys := more }
    Shaped order (received.setNode donor { received.node donor with keys := fewer }) := by
  intro received
  have framed : Framed s received := .setKeys more (s.node receiver).nextLeaf
  have first : Shaped order received := shaped.setKeys _ receiverLeaf grown
  exact first.setKeys _ (framed.leaf donorLeaf) kept

theorem redistribute (shaped : Shaped order s) {donor receiver : NodePtr} (fromLeft : Bool)
    (donorLeaf : (s.node donor).leaf = true) (receiverLeaf : (s.node receiver).leaf = true)
    (few : (s.node receiver).keysNum < order - 1) :
    Shaped order (redistribute cachePager root s donor receiver fromLeft).1 := by
  have many := (shaped.sized donor).keys
  rw [BtreeNode.keysNum] at few many
  have grown : (if fromLeft = true then
      (s.node donor).keys.getLast?.toList ++ (s.node receiver).keys
      else (s.node receiver).keys ++ (s.node donor).keys.head?.toList).length ≤ order - 1 := by
    split_ifs
    · rw [List.length_append]
      have one := Option.length_toList_le (o := (s.node donor).keys.getLast?)
      omega
    · rw [List.length_append]
      have one := Option.length_toList_le (o := (s.node donor).keys.head?)
      omega
  have kept : (if fromLeft = true then (s.node donor).keys.dropLast
      else (s.node donor).keys.tail).length ≤ order - 1 := by
    split_ifs
    · rw [List.length_dropLast]
      omega
    · rw [List.length_tail]
      omega
  have moved := shaped.moveKeys donorLeaf receiverLeaf grown kept
  have written : ∀ {t held}, Shaped order t →
      Shaped order (if (cachePager.writeIndexRecord held t donor).2.value < 0 then
        cachePager.writeIndexRecord held t donor
      else cachePager.writeIndexRecord held (cachePager.writeIndexRecord held t donor).1
        receiver).1 := by
    intro t held start
    split
    · exact start.writeIndexRecord donor
    · exact (start.writeIndexRecord donor).writeIndexRecord receiver
  rw [Gaveta.redistribute]
  exact written moved

theorem merge (shaped : Shaped order s) {left right : NodePtr}
    (leaf : (s.node left).leaf = true)
    (few : (s.node left).keysNum + (s.node right).keysNum ≤ order - 1) :
    Shaped order (merge cachePager root s left right).1 := by
  have joined : Shaped order (s.setNode left { s.node left with
      keys := (s.node left).keys ++ (s.node right).keys
      nextLeaf := (s.node right).nextLeaf }) := by
    refine shaped.setKeys _ leaf ?_
    rw [List.length_append]
    exact few
  have written := @writeIndexRecord order _ [left, right, root] joined left
  rw [Gaveta.merge]
  dsimp only
  split
  · exact written
  · exact ⟨written.sized, written.queued, written.above⟩

theorem rebalance (shaped : Shaped order s) (alike : SiblingsAlike s)
    (leaf : (s.node p).leaf = true) (few : (s.node p).keysNum < (order - 1) / 2) :
    Shaped order (rebalance cachePager order root s p).1 := by
  obtain ⟨leftState, leftKnown⟩ := shaped.getSibling root p true
  obtain ⟨rightState, rightKnown⟩ := shaped.getSibling root p false
  have sibling : ∀ q, (∃ parent, (s.node p).rrn ∈ (s.node parent).children ∧
      (s.node q).rrn ∈ (s.node parent).children) → (s.node q).leaf = true := by
    rintro q ⟨parent, here, there⟩
    rw [← alike.alike parent p q here there]
    exact leaf
  rw [Gaveta.rebalance]
  dsimp only
  rw [leftState]
  split
  · rename_i left found
    obtain ⟨given, _⟩ := Option.filter_eq_some_iff.mp found
    exact shaped.redistribute true (sibling left (leftKnown left given)) leaf (by omega)
  · rename_i leftPoor
    rw [rightState]
    split
    · rename_i right found
      obtain ⟨given, _⟩ := Option.filter_eq_some_iff.mp found
      exact shaped.redistribute false (sibling right (rightKnown right given)) leaf (by omega)
    · rename_i rightPoor
      split
      · rename_i left given
        rw [Option.filter_eq_none_iff] at leftPoor
        have poor : (s.node left).keysNum ≤ (order - 1) / 2 :=
          Nat.le_of_not_lt fun rich => leftPoor left given (decide_eq_true rich)
        exact shaped.merge (sibling left (leftKnown left given)) (by omega)
      · rename_i right _ given
        rw [Option.filter_eq_none_iff] at rightPoor
        have poor : (s.node right).keysNum ≤ (order - 1) / 2 :=
          Nat.le_of_not_lt fun rich => rightPoor right given (decide_eq_true rich)
        exact shaped.merge leaf (by omega)
      · exact shaped

theorem releaseRecord {first : NodeCache} (shaped : Shaped order s) (framed : Framed first s)
    (rrn : Rrn) :
    let released :=
      if rrn ≠ noRrn then
        if (cachePager.writeTombstone s rrn).2 then
          cachePager.insertFreeRrn (cachePager.writeTombstone s rrn).1 rrn
        else (cachePager.writeTombstone s rrn).1
      else s
    Shaped order released ∧ Framed first released := by
  dsimp only
  split_ifs
  · exact ⟨⟨shaped.sized, shaped.queued, shaped.above⟩, framed⟩
  · exact ⟨⟨shaped.sized, shaped.queued, shaped.above⟩, framed⟩
  · exact ⟨shaped, framed⟩

theorem bRemove {b : CachedTree} (shaped : Shaped b.config.order b.io)
    (alike : SiblingsAlike b.io) (id : CString) :
    Shaped b.config.order (bRemove cachePager b id).1.io := by
  have searched := shaped.bSearch id
  rw [Gaveta.bRemove]
  split
  · exact shaped
  · rename_i root top
    dsimp only
    rw [searched]
    split
    · exact shaped
    · rename_i p found
      split
      · exact shaped
      · rename_i key held
        split
        · exact shaped
        · split
          · exact shaped
          · rename_i branch
            have leaf : (b.io.node p).leaf = true := Bool.eq_true_of_not_eq_false branch
            have few : ((b.io.node p).keys.eraseIdx
                (Gaveta.bSearch cachePager b id).2.2.toNat).length ≤ b.config.order - 1 :=
              (List.length_eraseIdx_le _ _).trans (shaped.sized p).keys
            have erased : Shaped b.config.order (cachePager.setNode b.io p
                { cachePager.node b.io p with
                  keys := (cachePager.node b.io p).keys.eraseIdx
                    (Gaveta.bSearch cachePager b id).2.2.toNat }) := shaped.setKeys _ leaf few
            have freed := erased.releaseRecord (.setKeys _ _) key.dataRegisterRrn
            dsimp only at freed
            generalize (if key.dataRegisterRrn ≠ noRrn then _ else _ : NodeCache) = stored at freed ⊢
            obtain ⟨sized, framed⟩ := freed
            have written := @writeIndexRecord b.config.order stored [p, root] sized p
            have kept := Framed.writeIndexRecord stored [p, root] p
            split
            · exact sized.clearBtreeNode root
            · split
              · exact written
              · split
                · rename_i underflow
                  exact written.rebalance ((alike.frame framed).frame kept)
                    (kept.leaf (framed.leaf leaf)) underflow.2
                · exact written

end Remove

end Shaped

namespace CachedTree

def RemovesAlike (b : CachedTree) : TreeCall → Prop
  | .insert _ => True
  | .remove _ => SiblingsAlike b.io

variable {order : Nat} {b after : CachedTree}

theorem call_order {next : TreeCall} (called : b.call next = some after) :
    after.config.order = b.config.order := by
  cases next with
  | insert key =>
      obtain ⟨status, _, rfl⟩ := Option.map_eq_some_iff.mp called
      rw [bInsert]
      split
      · rfl
      · rw [finishInsert]
        split
        · rfl
        · split_ifs
          · simp only [growRoot]
            split_ifs <;> rfl
          · rfl
  | remove id =>
      cases called
      rw [(bRemove_config b id).1]

theorem call_shaped {next : TreeCall} (shaped : Shaped b.config.order b.io)
    (two : 2 ≤ b.config.order) (alike : b.RemovesAlike next) (called : b.call next = some after) :
    Shaped b.config.order after.io := by
  cases next with
  | insert key =>
      obtain ⟨status, _, rfl⟩ := Option.map_eq_some_iff.mp called
      exact shaped.bInsert two rfl key.id key.dataRegisterRrn
  | remove id =>
      cases called
      exact shaped.bRemove alike id

theorem passes_order {calls : List TreeCall} :
    (∀ passed ∈ b.passes calls, passed.config.order = b.config.order) := by
  induction calls generalizing b with
  | nil =>
      intro passed member
      rw [List.mem_singleton.mp member]
  | cons next rest ih =>
      intro passed member
      rcases List.mem_cons.mp member with rfl | later
      · rfl
      · cases called : b.call next with
        | none => simp [called] at later
        | some between =>
            simp only [called] at later
            rw [ih passed later, call_order called]

theorem passes_shaped {calls : List TreeCall} (shaped : Shaped b.config.order b.io)
    (two : 2 ≤ b.config.order) (alike : b.EachCall RemovesAlike calls) :
    ∀ passed ∈ b.passes calls, Shaped b.config.order passed.io := by
  induction calls generalizing b with
  | nil =>
      intro passed member
      rwa [List.mem_singleton.mp member]
  | cons next rest ih =>
      intro passed member
      rcases List.mem_cons.mp member with rfl | later
      · exact shaped
      · cases called : b.call next with
        | none => simp [called] at later
        | some between =>
            simp only [called] at later
            have order := call_order called
            have reached := call_shaped shaped two alike.1 called
            rw [← order] at reached two ⊢
            exact ih reached two (alike.2 between called) passed later

theorem removesAlike_inserts (b : CachedTree) (built : List Key) :
    b.EachCall RemovesAlike (built.map .insert) := by
  induction built generalizing b with
  | nil => trivial
  | cons key rest ih => exact ⟨trivial, fun after _ => ih after⟩

theorem reloadRoot_shaped (shaped : Shaped order b.io) : Shaped order b.reloadRoot.io := by
  have load : cachePager.loadBtreeNode [] b.io b.config.rootRrn =
      (b.io, b.io.searchGq b.config.rootRrn) := shaped.loadBtreeNode [] _
  rw [reloadRoot, load]
  dsimp only
  split
  · exact shaped
  · exact ⟨shaped.sized, shaped.queued, shaped.above⟩

theorem fresh_shaped (config : BtreeConfig) (free : List Rrn) (ioFails : Nat → Bool) :
    Shaped order (fresh config free ioFails).io :=
  ⟨fun _ => .of_leaf rfl (Nat.zero_le _), List.not_mem_nil, Nat.zero_lt_one⟩

def RemovalsAlike (start : CachedTree) (built : List Key) (calls : List TreeCall) : Prop :=
  ∀ b, start.run (built.map .insert) = some b → b.reloadRoot.EachCall RemovesAlike calls

section Life

variable {config : BtreeConfig} {free : List Rrn} {ioFails : Nat → Bool} {built : List Key}
  {calls : List TreeCall}

theorem lifetime_order (reached : b ∈ (fresh config free ioFails).lifetime built calls) :
    b.config.order = config.order := by
  rcases List.mem_append.mp reached with build | later
  · exact passes_order b build
  · split at later
    · cases later
    · rename_i last ended
      have same := passes_order last (run_mem_passes ended)
      exact (passes_order b later).trans same

theorem lifetime_shaped (two : 2 ≤ config.order)
    (alike : (fresh config free ioFails).RemovalsAlike built calls)
    (reached : b ∈ (fresh config free ioFails).lifetime built calls) :
    Shaped config.order b.io := by
  have builds : ∀ passed ∈ (fresh config free ioFails).passes (built.map .insert),
      Shaped config.order passed.io :=
    passes_shaped (fresh_shaped config free ioFails) two (removesAlike_inserts _ built)
  rcases List.mem_append.mp reached with build | later
  · exact builds b build
  · split at later
    · cases later
    · rename_i last ended
      have order : last.reloadRoot.config.order = config.order :=
        passes_order last (run_mem_passes ended)
      have reloaded := reloadRoot_shaped (builds last (run_mem_passes ended))
      have calls := alike last ended
      rw [← order] at two reloaded ⊢
      exact passes_shaped reloaded two calls b later

end Life

end CachedTree

open CachedTree

def ConfigFields.tree (cfg : ConfigFields) : BtreeConfig where
  schemaSize := cfg.schemaSize.toNat
  order := cfg.order.toNat
  rootRrn := cfg.rootRrn
  headerSize := cfg.headerSize.toNat

theorem ReadsConfig.order {content : List UInt8} {buffers : LineBuffers}
    {before cfg : ConfigFields} (reads : ReadsConfig content buffers before cfg) :
    0 < cfg.order.toNat := by
  obtain ⟨fuel, finished⟩ := reads
  obtain ⟨read, _, _, filled⟩ := readsConfig_iff.mp finished
  have positive := (fillDefaults_order read).1
  rwa [filled] at positive

theorem order_enough {order : Nat} {leaf : Bool} (positive : 0 < order) :
    (3 ≤ order ∨ order = 2 ∧ leaf = true) ↔ order ≠ 1 ∧ (order = 2 → leaf = true) := by
  cases leaf with
  | true =>
      simp only [and_true, implies_true]
      omega
  | false =>
      simp only [Bool.false_eq_true, and_false, or_false, imp_false]
      omega

/-- In every life of a tree with an order from a configuration file, a full node is split in bounds
exactly if it has its sizes, the order is not 1 and a node of order 2 is a leaf.  The nodes have
their sizes as long as removals start with siblings of one kind. -/
theorem split_in_bounds_iff {content : List UInt8} {buffers : LineBuffers}
    {before cfg : ConfigFields} (reads : ReadsConfig content buffers before cfg)
    (free : List Rrn) (ioFails : Nat → Bool) (built : List Key) (calls : List TreeCall)
    (b : CachedTree) (reached : b ∈ (fresh cfg.tree free ioFails).lifetime built calls)
    (p : NodePtr) (k : Key) (rChild : Option Rrn) (newRrn : Rrn)
    (full : b.config.order - 1 ≤ (b.io.node p).keysNum)
    (given : (b.io.node p).leaf = false → rChild.isSome) :
    let order := b.config.order
    let node := b.io.node p
    let inBounds := SplitInBounds order node (splitArrays order node k rChild newRrn)
    (inBounds ↔ node.Sized order ∧ order ≠ 1 ∧ (order = 2 → node.leaf = true)) ∧
      ((fresh cfg.tree free ioFails).RemovalsAlike built calls →
        (inBounds ↔ order ≠ 1 ∧ (order = 2 → node.leaf = true))) := by
  intro order node inBounds
  have same : order = cfg.tree.order := lifetime_order reached
  have positive : 0 < order := same ▸ reads.order
  have sizes : inBounds ↔
      node.Sized order ∧ order ≠ 1 ∧ (order = 2 → node.leaf = true) := by
    rw [← order_enough positive]
    exact splitInBounds_iff full given
  refine ⟨sizes, fun alike => sizes.trans (and_iff_right_of_imp fun admitted => ?_)⟩
  have two : 2 ≤ cfg.tree.order := by
    have other := admitted.1
    omega
  rw [same]
  exact (lifetime_shaped two alike reached).sized p

def fieldsOf (content : List UInt8) : ConfigFields :=
  ((readBtreeConfig 4 (some content) true noBuffers blankFields).map Prod.fst).getD blankFields

def narrowConfig : List UInt8 := shortConfig.set 7 49

theorem shortConfig_reads : ReadsConfig shortConfig noBuffers blankFields (fieldsOf shortConfig) :=
  ⟨4, by decide +kernel⟩

theorem narrowConfig_reads :
    ReadsConfig narrowConfig noBuffers blankFields (fieldsOf narrowConfig) :=
  ⟨4, by decide +kernel⟩

def ascendingKeys (count : Nat) : List Key :=
  (List.range count).map fun n => ⟨singleId (Fin.ofNat 255 (n + 97)), (n + 1).toUInt16⟩

theorem built_root_leaf {cfg : ConfigFields} {keys : List Key} {count : Nat}
    (last : ((fresh cfg.tree [] fun _ => false).lifetime keys []).getLast?.map
      (fun b => b.root.map fun root => ((b.io.node root).keysNum, (b.io.node root).leaf)) =
      some (some (count, true))) :
    ∃ b root, b ∈ (fresh cfg.tree [] fun _ => false).lifetime keys [] ∧
      (b.io.node root).keysNum = count ∧ (b.io.node root).leaf = true := by
  obtain ⟨b, found, same⟩ := Option.map_eq_some_iff.mp last
  obtain ⟨root, _, facts⟩ := Option.map_eq_some_iff.mp same
  simp only [Prod.mk.injEq] at facts
  exact ⟨b, root, List.mem_of_getLast? found, facts⟩

theorem split_in_bounds_iff_seven :
    ∃ b root, b ∈ (fresh (fieldsOf shortConfig).tree [] fun _ => false).lifetime
        (ascendingKeys 6) [] ∧
      b.config.order - 1 ≤ (b.io.node root).keysNum ∧
      SplitInBounds b.config.order (b.io.node root)
        (splitArrays b.config.order (b.io.node root) ⟨singleId 110, 7⟩ none 2) := by
  obtain ⟨b, root, reached, held, leaf⟩ := @built_root_leaf (fieldsOf shortConfig)
    (ascendingKeys 6) 6 (by decide +kernel)
  have seven : b.config.order = 7 := (lifetime_order reached).trans (by decide +kernel)
  have full : b.config.order - 1 ≤ (b.io.node root).keysNum := by omega
  refine ⟨b, root, reached, full, ?_⟩
  refine ((split_in_bounds_iff shortConfig_reads [] (fun _ => false) (ascendingKeys 6) [] b reached
    root ⟨singleId 110, 7⟩ none 2 full (by simp [leaf])).2 fun _ _ => trivial).mpr ⟨?_, fun _ => leaf⟩
  rw [seven]
  decide

/-- With order 1 a second key needs two slots of the array with one slot. -/
theorem order_one_overruns :
    ReadsConfig narrowConfig noBuffers blankFields (fieldsOf narrowConfig) ∧
    ∃ b root, b ∈ (fresh (fieldsOf narrowConfig).tree [] fun _ => false).lifetime
        (ascendingKeys 1) [] ∧
      b.config.order - 1 ≤ (b.io.node root).keysNum ∧ (b.io.node root).leaf = true ∧
      let run := splitArrays b.config.order (b.io.node root) ⟨singleId 98, 2⟩ none 2
      ¬run.temps.keys.Within b.config.order ∧ ¬SplitInBounds b.config.order (b.io.node root) run := by
  obtain ⟨b, root, reached, held, leaf⟩ := @built_root_leaf (fieldsOf narrowConfig)
    (ascendingKeys 1) 1 (by decide +kernel)
  have one : b.config.order = 1 := (lifetime_order reached).trans (by decide +kernel)
  have overruns : ¬(splitArrays b.config.order (b.io.node root) ⟨singleId 98, 2⟩ none
      2).temps.keys.Within b.config.order := by
    intro within
    have room := splitArrays_keys_within within
    omega
  exact ⟨narrowConfig_reads, b, root, reached, by omega, leaf, overruns,
    fun inBounds => overruns inBounds.keys⟩

end Gaveta
