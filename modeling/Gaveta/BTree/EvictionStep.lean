import Gaveta.BTree.Keeps
import Gaveta.BTree.NodeCache
import Gaveta.BTree.RrnUniqueness
import Gaveta.Library.Fifo

/-!
`insert_key` on the cache, which is a queue without pins: what it pushes decides what it releases, and
until it releases a node in use all nodes on its path stay in the queue.
-/

namespace Gaveta

structure Grown (first s : NodeCache) : Prop where
  created : first.created <+: s.created
  released : first.usedReleased <+: s.usedReleased
  ioFails : s.ioFails = first.ioFails

namespace Grown

variable {first s : NodeCache}

theorem refl (s : NodeCache) : Grown s s :=
  ⟨List.prefix_refl _, List.prefix_refl _, rfl⟩

theorem trans {middle last : NodeCache} (first : Grown s middle) (second : Grown middle last) :
    Grown s last :=
  ⟨first.created.trans second.created, first.released.trans second.released,
    second.ioFails.trans first.ioFails⟩

theorem pushGq {held : List NodePtr} {p : NodePtr} (grown : Grown first s) :
    Grown first (NodeCache.pushGq held s p) := by
  rw [NodeCache.pushGq]
  dsimp only
  split_ifs
  · rw [NodeCache.evict]
    split
    · exact ⟨grown.created, grown.released, grown.ioFails⟩
    · refine ⟨grown.created, ?_, grown.ioFails⟩
      dsimp only
      split_ifs
      · exact grown.released.trans (List.prefix_append _ _)
      · exact grown.released
  · exact ⟨grown.created, grown.released, grown.ioFails⟩

theorem writeIndexRecord {held : List NodePtr} (grown : Grown first s) (p : NodePtr) :
    Grown first (s.writeIndexRecord held p).1 := by
  have wrote : Grown first (s.wrote p) := ⟨grown.created, grown.released, grown.ioFails⟩
  rw [NodeCache.writeIndexRecord]
  split_ifs
  · exact grown
  · exact ⟨grown.created, grown.released, grown.ioFails⟩
  · split
    · exact wrote
    · exact wrote.pushGq

theorem loadBtreeNode {held : List NodePtr} (grown : Grown first s) (rrn : Rrn) :
    Grown first (s.loadBtreeNode held rrn).1 := by
  rw [NodeCache.loadBtreeNode]
  split
  · exact grown
  · split_ifs
    · exact grown
    · split
      · exact grown
      · refine Grown.pushGq ?_
        exact ⟨grown.created, grown.released, grown.ioFails⟩

theorem released_ne_nil (grown : Grown first s)
    (used : first.usedReleased ≠ []) : s.usedReleased ≠ [] := by
  intro empty
  have released := grown.released
  rw [empty, List.prefix_nil] at released
  exact used released

theorem distinct (grown : Grown first s)
    (distinct : DistinctRrns s.created) : DistinctRrns first.created := by
  obtain ⟨more, created⟩ := grown.created
  rw [← created] at distinct
  exact distinct.of_append

end Grown

theorem cachePager_grown (first : NodeCache) :
    cachePager.Keeps none (fun _ => True) (Grown first) where
  keys _ _ _ _ := trivial
  setNode grown _ _ := ⟨grown.created, grown.released, grown.ioFails⟩
  halves grown _ _ _ := ⟨grown.created, grown.released, grown.ioFails⟩
  allocBtreeNode grown _ := ⟨grown.created, grown.released, grown.ioFails⟩
  allocated _ _ := by simp
  clearBtreeNode _ grown _ := ⟨grown.created, grown.released, grown.ioFails⟩
  loadBtreeNode rrn grown _ := grown.loadBtreeNode rrn
  writeIndexRecord p grown _ := grown.writeIndexRecord p
  getFreeRrn grown := ⟨grown.created.trans (List.prefix_append _ _), grown.released, grown.ioFails⟩
  insertFreeRrn _ grown := ⟨grown.created, grown.released, grown.ioFails⟩
  writeTombstone _ grown := ⟨grown.created, grown.released, grown.ioFails⟩

def isFull (order : Nat) (node : BtreeNode) : Bool := decide (order - 1 ≤ node.keysNum)

def queueLimit : Nat := cacheCapacity - 1

/-- The nodes in use at each split below `p` that an insertion of `id` makes, deepest first, and
whether it splits `p` itself. -/
def splitFrames (order : Nat) (s : NodeCache) (id : CString) :
    Nat → List NodePtr → NodePtr → List (List NodePtr) × Bool
  | 0, _, _ => ([], false)
  | fuel + 1, held, p =>
      let found := searchInBtreeNode (s.node p) id
      if found.1 = .foundKey then ([], false)
      else if (s.node p).leaf then
        if isFull order (s.node p) then ([p :: held], true) else ([], false)
      else
        match s.searchGq ((s.node p).child found.2) with
        | none => ([], false)
        | some child =>
            let below := splitFrames order s id fuel (p :: held) child
            if below.2 && isFull order (s.node p) then (below.1 ++ [p :: child :: held], true)
            else (below.1, false)

structure Steady (level : Rrn → Nat) (s : NodeCache) : Prop where
  size : s.cacheSize = s.gq.length
  bounded : s.gq.length ≤ queueLimit
  distinct : s.gq.Nodup
  above : nullPtr < s.unused
  allocated : ∀ p ∈ s.gq, p ≠ nullPtr ∧ p < s.unused
  works : ∀ n, s.ioFails n = false
  named : ∀ p ∈ s.gq, (s.node p).rrn ∈ s.created
  below : ∀ p ∈ s.gq, ∀ child ∈ (s.node p).children,
    child ∈ s.created ∧ level child < level (s.node p).rrn
  spared : s.usedReleased = []

structure Entered (level : Rrn → Nat) (s after : NodeCache) (p : NodePtr) : Prop where
  steady : Steady level after
  gq : after.gq = Fifo.push queueLimit s.gq p
  node : ∀ q ∈ after.gq, after.node q = s.node q
  created : after.created = s.created
  unused : after.unused = s.unused

section Push

variable {level : Rrn → Nat} {s : NodeCache} {p : NodePtr} {held : List NodePtr}

theorem Steady.pushGq_eq (steady : Steady level s) :
    NodeCache.pushGq held s p =
      { s with
        memory := fun q => if q ∈ Fifo.dropped queueLimit s.gq then none else s.memory q
        gq := Fifo.push queueLimit s.gq p
        cacheSize := (Fifo.push queueLimit s.gq p).length
        usedReleased :=
          s.usedReleased ++ (Fifo.dropped queueLimit s.gq).filter fun q => q ∈ held } := by
  have size := steady.size
  rcases Nat.lt_or_ge s.gq.length queueLimit with room | full
  · have space : s.cacheSize + 1 < cacheCapacity := by
      rw [size]
      exact Nat.add_lt_of_lt_sub room
    rw [NodeCache.pushGq_room space, Fifo.dropped_room room, Fifo.push_room room]
    simp [size]
  · have count : s.gq.length = queueLimit := Nat.le_antisymm steady.bounded full
    rcases oldest : s.gq with _ | ⟨old, rest⟩
    · rw [oldest] at count
      cases count
    · have space : cacheCapacity ≤ s.cacheSize + 1 := by
        rw [size, count]
        decide
      rw [oldest] at count
      rw [NodeCache.pushGq_full space oldest, Fifo.dropped_full count, Fifo.push_full count]
      have memory : Function.update s.memory old none =
          fun q => if q ∈ [old] then none else s.memory q := by
        funext q
        by_cases same : q = old
        · simp [same]
        · simp [same]
      have length : s.cacheSize = (rest ++ [p]).length := by
        rw [size, oldest, List.length_append]
        rfl
      have released : (if old ∈ held then s.usedReleased ++ [old] else s.usedReleased) =
          s.usedReleased ++ [old].filter fun q => q ∈ held := by
        by_cases used : old ∈ held
        · simp [used]
        · simp [used]
      rw [NodeCache.clearBtreeNode, memory, released, ← length]

theorem Steady.gq_pushGq (steady : Steady level s) :
    (NodeCache.pushGq held s p).gq = Fifo.push queueLimit s.gq p := by
  rw [steady.pushGq_eq]

theorem Steady.node_pushGq (steady : Steady level s) {q : NodePtr}
    (kept : q ∉ Fifo.dropped queueLimit s.gq) :
    (NodeCache.pushGq held s p).node q = s.node q := by
  rw [steady.pushGq_eq]
  simp [NodeCache.node, kept]

theorem Steady.push (steady : Steady level s) (new : p ∉ s.gq) (notNull : p ≠ nullPtr)
    (old : p < s.unused) (named : (s.node p).rrn ∈ s.created)
    (below : ∀ child ∈ (s.node p).children,
      child ∈ s.created ∧ level child < level (s.node p).rrn)
    (spares : ∀ q ∈ Fifo.dropped queueLimit s.gq, q ∉ held) :
    Entered level s (NodeCache.pushGq held s p) p := by
  have positive : 0 < queueLimit := by decide
  have queue := @Steady.gq_pushGq level s p held steady
  have created : (NodeCache.pushGq held s p).created = s.created := by rw [steady.pushGq_eq]
  have unused : (NodeCache.pushGq held s p).unused = s.unused := by rw [steady.pushGq_eq]
  have node : ∀ q ∈ Fifo.push queueLimit s.gq p, (NodeCache.pushGq held s p).node q = s.node q :=
    fun q member => steady.node_pushGq fun taken =>
      Fifo.not_mem_push positive steady.distinct new taken member
  refine ⟨⟨?_, ?_, ?_, ?_, ?_, ?_, ?_, ?_, ?_⟩, queue, queue ▸ node, created, unused⟩
  · rw [steady.pushGq_eq]
  · rw [queue]
    exact Fifo.length_push_le steady.bounded
  · rw [queue]
    exact Fifo.nodup_push steady.distinct new
  · rw [unused]
    exact steady.above
  · rw [queue, unused]
    exact Fifo.forall_push (fun q => q ≠ nullPtr ∧ q < s.unused) ⟨notNull, old⟩ steady.allocated
  · rw [steady.pushGq_eq]
    exact steady.works
  · rw [queue, created]
    intro q member
    rw [node q member]
    exact Fifo.forall_push (fun q => (s.node q).rrn ∈ s.created) named steady.named q member
  · rw [queue, created]
    intro q member
    rw [node q member]
    exact Fifo.forall_push (fun q => ∀ child ∈ (s.node q).children,
      child ∈ s.created ∧ level child < level (s.node q).rrn) below steady.below q member
  · rw [steady.pushGq_eq]
    simpa [steady.spared] using spares

theorem Steady.push_used (steady : Steady level s)
    (used : ∃ q ∈ Fifo.dropped queueLimit s.gq, q ∈ held) :
    (NodeCache.pushGq held s p).usedReleased ≠ [] := by
  obtain ⟨q, taken, inUse⟩ := used
  rw [steady.pushGq_eq]
  intro empty
  have none := (List.append_eq_nil_iff.mp empty).2
  have member : q ∈ (Fifo.dropped queueLimit s.gq).filter fun q => q ∈ held := by
    simpa using ⟨taken, inUse⟩
  rw [none] at member
  cases member

theorem NodeCache.writeIndexRecord_cached (works : ∀ n, s.ioFails n = false)
    (notNull : p ≠ nullPtr) (member : p ∈ s.gq) :
    s.writeIndexRecord held p = (s.wrote p, .success) := by
  obtain ⟨first, found⟩ := Option.isSome_iff_exists.mp (NodeCache.searchGq_isSome member)
  simp [NodeCache.writeIndexRecord, notNull, works, found]

theorem NodeCache.writeIndexRecord_new (works : ∀ n, s.ioFails n = false)
    (notNull : p ≠ nullPtr) (absent : s.searchGq (s.node p).rrn = none) :
    s.writeIndexRecord held p = (NodeCache.pushGq held (s.wrote p) p, .success) := by
  simp [NodeCache.writeIndexRecord, notNull, works, absent]

end Push

section Place

variable {level : Rrn → Nat} {s : NodeCache} {p : NodePtr} {held : List NodePtr}
  {order pos : Nat} {k : Key} {rChild : Option NodePtr} {promoted : Bool}

theorem insertInBtreeNode_children (node : BtreeNode) (k : Key) (slot : Option Rrn) (pos : Nat) :
    ∀ child ∈ (insertInBtreeNode node k slot pos).children,
      child ∈ node.children ∨ slot = some child := by
  intro child member
  cases slot with
  | none => exact Or.inl (by simpa [insertInBtreeNode] using member)
  | some rrn =>
      cases leaf : node.leaf with
      | true => exact Or.inl (by simpa [insertInBtreeNode, leaf] using member)
      | false =>
          simp only [insertInBtreeNode, leaf] at member
          rcases mem_openSlot.mp member with rfl | old
          · exact Or.inr rfl
          · exact Or.inl old

theorem splitNode_children (order : Nat) {node : BtreeNode} (k : Key) {slot : Option Rrn} (new : Rrn)
    (whole : slot = none → node.leaf = true) :
    ∀ child ∈ (splitNode order node k slot new).left.children ++
      (splitNode order node k slot new).right.children,
      child ∈ node.children ∨ slot = some child := by
  intro child member
  cases leaf : node.leaf with
  | true =>
      obtain ⟨left, right⟩ := splitNode_leaf_children order k slot new leaf
      rw [left, right, List.append_nil] at member
      exact Or.inl member
  | false =>
      cases slot with
      | none => exact absurd (whole rfl) (by simp [leaf])
      | some rrn =>
          obtain ⟨pos, parts⟩ := splitNode_branch_children order k rrn new leaf
          rcases mem_openSlot.mp (parts.subset member) with rfl | old
          · exact Or.inr rfl
          · exact Or.inl old

theorem Steady.rewrite {content : BtreeNode} (steady : Steady level s)
    (name : content.rrn = (s.node p).rrn)
    (below : ∀ child ∈ content.children, child ∈ s.created ∧ level child < level content.rrn) :
    Steady level (s.setNode p content) := by
  refine ⟨steady.size, steady.bounded, steady.distinct, steady.above, steady.allocated, steady.works,
    ?_, ?_, steady.spared⟩
  · intro q member
    rw [NodeCache.node_setNode]
    split_ifs with same
    · rw [name, ← same]
      exact steady.named q member
    · exact steady.named q member
  · intro q member
    rw [NodeCache.node_setNode]
    split_ifs with same
    · exact below
    · exact steady.below q member

theorem Steady.wrote (steady : Steady level s) (p : NodePtr) : Steady level (s.wrote p) :=
  ⟨steady.size, steady.bounded, steady.distinct, steady.above, steady.allocated, steady.works,
    steady.named, steady.below, steady.spared⟩

theorem Steady.allocBtreeNode (steady : Steady level s) (content : BtreeNode) :
    Steady level (s.allocBtreeNode content) := by
  have same : ∀ q ∈ s.gq, (s.allocBtreeNode content).node q = s.node q := by
    intro q member
    rw [NodeCache.node_allocBtreeNode, if_neg (Nat.ne_of_lt (steady.allocated q member).2)]
  refine ⟨steady.size, steady.bounded, steady.distinct, Nat.lt_succ_of_lt steady.above, ?_,
    steady.works, ?_, ?_, steady.spared⟩
  · intro q member
    obtain ⟨notNull, old⟩ := steady.allocated q member
    exact ⟨notNull, Nat.lt_succ_of_lt old⟩
  · intro q member
    rw [same q member]
    exact steady.named q member
  · intro q member
    rw [same q member]
    exact steady.below q member

theorem Steady.draw (steady : Steady level s) (height : Nat)
    (fresh : (getFreeRrn s.freeRrn).1 ∉ s.created) :
    Steady (Function.update level (getFreeRrn s.freeRrn).1 height) (cachePager.getFreeRrn s).1 := by
  have same : ∀ rrn ∈ s.created,
      Function.update level (getFreeRrn s.freeRrn).1 height rrn = level rrn :=
    drawn_level fresh height
  refine ⟨steady.size, steady.bounded, steady.distinct, steady.above, steady.allocated, steady.works,
    ?_, ?_, steady.spared⟩
  · intro q member
    exact List.mem_append_left _ (steady.named q member)
  · intro q member child inside
    obtain ⟨known, lower⟩ := steady.below q member child inside
    refine ⟨List.mem_append_left _ known, ?_⟩
    have name := same _ (steady.named q member)
    have slot := same child known
    simp only [cachePager] at *
    rw [slot]
    exact lt_of_lt_of_eq lower name.symm

structure Accepts (level : Rrn → Nat) (s : NodeCache) (p : NodePtr) (rChild : Option NodePtr) :
    Prop where
  whole : rChild = none → (s.node p).leaf = true
  below : ∀ child ∈ rChild,
    (s.node child).rrn ∈ s.created ∧ level (s.node child).rrn < level (s.node p).rrn

theorem Accepts.children {slots : List Rrn} (accepts : Accepts level s p rChild)
    (steady : Steady level s) (member : p ∈ s.gq)
    (known : ∀ child ∈ slots, child ∈ (s.node p).children ∨
      (rChild.map fun child => (s.node child).rrn) = some child) :
    ∀ child ∈ slots, child ∈ s.created ∧ level child < level (s.node p).rrn := by
  intro child inside
  rcases known child inside with old | new
  · exact steady.below p member child old
  · obtain ⟨q, same, rfl⟩ := Option.map_eq_some_iff.mp new
    exact accepts.below q same

structure Rewritten (level : Rrn → Nat) (s : NodeCache) (p : NodePtr) (after : NodeCache) : Prop where
  steady : Steady level after
  gq : after.gq = s.gq
  created : after.created = s.created
  unused : after.unused = s.unused
  node : ∀ q, q ≠ p → after.node q = s.node q
  rrn : (after.node p).rrn = (s.node p).rrn

theorem Steady.placeKey_room (steady : Steady level s) (member : p ∈ s.gq)
    (accepts : Accepts level s p rChild) (room : isFull order (s.node p) = false) :
    ∃ after, placeKey cachePager order held s p k rChild pos promoted =
      (after, .status .success, false) ∧ Rewritten level s p after := by
  have space : (s.node p).keysNum < order - 1 := by
    rw [isFull, decide_eq_false_iff_not] at room
    omega
  have name : (insertInBtreeNode (s.node p) k (rChild.map fun child => (s.node child).rrn) pos).rrn =
      (s.node p).rrn := rfl
  have below := accepts.children steady member (insertInBtreeNode_children (s.node p) k _ pos)
  have stored := (steady.rewrite name (name ▸ below)).wrote p
  have written := @NodeCache.writeIndexRecord_cached (s.setNode p
    (insertInBtreeNode (s.node p) k (rChild.map fun child => (s.node child).rrn) pos)) p
    (p :: (rChild.toList ++ held)) steady.works (steady.allocated p member).1 member
  refine ⟨_, ?_, stored, rfl, rfl, rfl, ?_, ?_⟩
  · simp only [placeKey, cachePager, space, ↓reduceIte, written]
  · intro q other
    simp [other]
  · simp [name]

def NodeCache.halved (s : NodeCache) (p : NodePtr) (halves : Halves) : NodeCache :=
  ((cachePager.getFreeRrn s).1.allocBtreeNode halves.right).setNode p halves.left

section Halved

variable {halves : Halves}

theorem NodeCache.node_halved (q : NodePtr) :
    (s.halved p halves).node q =
      if q = p then halves.left else if q = s.unused then halves.right else s.node q := by
  rw [NodeCache.halved, NodeCache.node_setNode, NodeCache.node_allocBtreeNode]
  rfl

theorem Steady.halved (steady : Steady level s) (member : p ∈ s.gq)
    (fresh : (getFreeRrn s.freeRrn).1 ∉ s.created) (name : halves.left.rrn = (s.node p).rrn)
    (below : ∀ child ∈ halves.left.children,
      child ∈ s.created ∧ level child < level (s.node p).rrn) :
    Steady (Function.update level (getFreeRrn s.freeRrn).1 (level (s.node p).rrn))
      (s.halved p halves) := by
  have drawn := (steady.draw (level (s.node p).rrn) fresh).allocBtreeNode halves.right
  have other : p ≠ (cachePager.getFreeRrn s).1.unused := Nat.ne_of_lt (steady.allocated p member).2
  apply drawn.rewrite
  · rw [NodeCache.node_allocBtreeNode, if_neg other]
    exact name
  · intro child inside
    obtain ⟨known, lower⟩ := below child inside
    rw [name, drawn_level fresh _ _ known, drawn_level fresh _ _ (steady.named p member)]
    exact ⟨List.mem_append_left _ known, lower⟩

theorem Steady.halved_absent (steady : Steady level s) (member : p ∈ s.gq)
    (fresh : (getFreeRrn s.freeRrn).1 ∉ s.created) (name : halves.left.rrn = (s.node p).rrn)
    (other : halves.right.rrn = (getFreeRrn s.freeRrn).1) :
    (s.halved p halves).searchGq ((s.halved p halves).node s.unused).rrn = none := by
  have unused : s.unused ≠ p := Nat.ne_of_gt (steady.allocated p member).2
  rw [NodeCache.searchGq_eq_none_iff, NodeCache.node_halved, if_neg unused, if_pos rfl, other]
  intro q inside same
  apply fresh
  rw [NodeCache.node_halved] at same
  split_ifs at same with here there
  · rw [← same, name]
    exact steady.named p member
  · exact absurd there (Nat.ne_of_lt (steady.allocated q inside).2)
  · rw [← same]
    exact steady.named q inside

end Halved

structure Prepared (level : Rrn → Nat) (s after : NodeCache) : Prop where
  steady : Steady level after
  gq : after.gq = s.gq
  created : s.created ⊆ after.created
  unused : after.unused = s.unused + 1
  named : (after.node s.unused).rrn ∈ after.created
  below : ∀ child ∈ (after.node s.unused).children,
    child ∈ after.created ∧ level child < level (after.node s.unused).rrn

theorem Steady.split_eq {halves : Halves} (steady : Steady level s) (member : p ∈ s.gq)
    (fresh : (getFreeRrn s.freeRrn).1 ∉ s.created) (named : (getFreeRrn s.freeRrn).1 ≠ noRrn)
    (cut : splitNode order (s.node p) k (rChild.map fun child => (s.node child).rrn)
      (getFreeRrn s.freeRrn).1 = halves) :
    split cachePager order held s p k rChild promoted =
      (NodeCache.pushGq (s.unused :: p :: (rChild.toList ++ held))
        (((s.halved p halves).wrote p).wrote s.unused) s.unused,
        .promotion halves.promoKey s.unused, true) := by
  have leftName := splitNode_left_rrn order (s.node p) k
    (rChild.map fun child => (s.node child).rrn) (getFreeRrn s.freeRrn).1
  have rightName := splitNode_right_rrn order (s.node p) k
    (rChild.map fun child => (s.node child).rrn) (getFreeRrn s.freeRrn).1
  rw [cut] at leftName rightName
  have parts : splitNode order (cachePager.node (cachePager.getFreeRrn s).1 p) k
      (rChild.map fun child => (cachePager.node (cachePager.getFreeRrn s).1 child).rrn)
      (cachePager.getFreeRrn s).2 = halves := cut
  have some : ¬(cachePager.getFreeRrn s).2 = noRrn := named
  have allocated : cachePager.allocBtreeNode (cachePager.getFreeRrn s).1 halves.right =
      ((cachePager.getFreeRrn s).1.allocBtreeNode halves.right, s.unused) := rfl
  have first : cachePager.writeIndexRecord (s.unused :: p :: (rChild.toList ++ held))
      (cachePager.setNode ((cachePager.getFreeRrn s).1.allocBtreeNode halves.right) p halves.left)
      p = ((s.halved p halves).wrote p, .success) :=
    NodeCache.writeIndexRecord_cached steady.works (steady.allocated p member).1 member
  have second : cachePager.writeIndexRecord (s.unused :: p :: (rChild.toList ++ held))
      ((s.halved p halves).wrote p) s.unused =
        (NodeCache.pushGq (s.unused :: p :: (rChild.toList ++ held))
          (((s.halved p halves).wrote p).wrote s.unused) s.unused, .success) :=
    NodeCache.writeIndexRecord_new steady.works (Nat.ne_of_gt steady.above)
      (steady.halved_absent member fresh leftName rightName)
  simp only [Gaveta.split, some, ↓reduceIte, parts, allocated, first, second, ne_eq,
    not_true_eq_false]

theorem Steady.split (steady : Steady level s) (member : p ∈ s.gq) (accepts : Accepts level s p rChild)
    (fresh : (getFreeRrn s.freeRrn).1 ∉ s.created) (named : (getFreeRrn s.freeRrn).1 ≠ noRrn) :
    ∃ after promoKey, Gaveta.split cachePager order held s p k rChild promoted =
        (NodeCache.pushGq (s.unused :: p :: (rChild.toList ++ held)) after s.unused,
          .promotion promoKey s.unused, true) ∧
      Prepared (Function.update level (getFreeRrn s.freeRrn).1 (level (s.node p).rrn)) s after ∧
      (∀ q ∈ s.gq, q ≠ p → after.node q = s.node q) ∧
      (after.node p).rrn = (s.node p).rrn ∧
      (after.node s.unused).rrn = (getFreeRrn s.freeRrn).1 := by
  have unused : s.unused ≠ p := Nat.ne_of_gt (steady.allocated p member).2
  have slots := accepts.children steady member (splitNode_children order k
    (getFreeRrn s.freeRrn).1 fun none => accepts.whole (Option.map_eq_none_iff.mp none))
  have leftName := splitNode_left_rrn order (s.node p) k
    (rChild.map fun child => (s.node child).rrn) (getFreeRrn s.freeRrn).1
  have rightName := splitNode_right_rrn order (s.node p) k
    (rChild.map fun child => (s.node child).rrn) (getFreeRrn s.freeRrn).1
  obtain ⟨halves, cut⟩ : ∃ halves, splitNode order (s.node p) k
    (rChild.map fun child => (s.node child).rrn) (getFreeRrn s.freeRrn).1 = halves := ⟨_, rfl⟩
  rw [cut] at slots leftName rightName
  have halved := steady.halved member fresh leftName fun child inside =>
    slots child (List.mem_append_left _ inside)
  have nodeRight : (s.halved p halves).node s.unused = halves.right := by
    rw [NodeCache.node_halved, if_neg unused, if_pos rfl]
  refine ⟨_, _, steady.split_eq member fresh named cut,
    ⟨(halved.wrote p).wrote s.unused, rfl, List.subset_append_left _ _, rfl, ?_, ?_⟩, ?_, ?_, ?_⟩
  · rw [NodeCache.node_wrote, NodeCache.node_wrote, nodeRight, rightName]
    exact List.mem_append_right _ (List.mem_singleton_self _)
  · rw [NodeCache.node_wrote, NodeCache.node_wrote, nodeRight, rightName, Function.update_self]
    intro child inside
    obtain ⟨known, lower⟩ := slots child (List.mem_append_right _ inside)
    rw [drawn_level fresh _ _ known]
    exact ⟨List.mem_append_left _ known, lower⟩
  · intro q inside different
    rw [NodeCache.node_wrote, NodeCache.node_wrote, NodeCache.node_halved, if_neg different,
      if_neg (Nat.ne_of_lt (steady.allocated q inside).2)]
  · rw [NodeCache.node_wrote, NodeCache.node_wrote, NodeCache.node_halved, if_pos rfl, leftName]
  · rw [NodeCache.node_wrote, NodeCache.node_wrote, nodeRight, rightName]

end Place

structure After (level last : Rrn → Nat) (s t : NodeCache) (count : Nat) : Prop where
  steady : Steady last t
  same : ∀ rrn ∈ s.created, last rrn = level rrn
  created : s.created ⊆ t.created
  unused : s.unused ≤ t.unused
  queue : ∃ items, items.length = count ∧ (∀ p ∈ items, s.unused ≤ p) ∧
    t.gq = Fifo.pushAll queueLimit s.gq items

section Run

variable {level middle last : Rrn → Nat} {s t u : NodeCache} {p : NodePtr}
  {held used : List NodePtr} {frames : List (List NodePtr)} {frame : List NodePtr}

theorem After.refl (steady : Steady level s) : After level level s s 0 :=
  ⟨steady, fun _ _ => rfl, List.Subset.refl _, le_rfl, [], rfl, by simp, rfl⟩

theorem After.short {count : Nat} (after : After level middle s t count) (start : Steady level s)
    (inside : p ∈ s.gq) (kept : p ∈ t.gq) : count < queueLimit := by
  obtain ⟨items, rfl, new, queue⟩ := after.queue
  rw [queue] at kept
  refine Fifo.length_lt_of_mem start.bounded ?_ kept
  intro member
  exact absurd (start.allocated p inside).2 (Nat.not_lt_of_le (new p member))

theorem After.rewritten {count : Nat} (after : After level middle s t count)
    (rewritten : Rewritten middle t p u) : After level middle s u count := by
  obtain ⟨items, length, new, queue⟩ := after.queue
  refine ⟨rewritten.steady, after.same, ?_, ?_, items, length, new, rewritten.gq.trans queue⟩
  · rw [rewritten.created]
    exact after.created
  · rw [rewritten.unused]
    exact after.unused

structure Pushed (level last : Rrn → Nat) (s t u v : NodeCache) (held : List NodePtr) (count : Nat) :
    Prop where
  after : After level last s v count
  node : ∀ q ∈ v.gq, v.node q = u.node q
  kept : ∀ q ∈ t.gq, q ∈ held → q ∈ v.gq
  new : t.unused ∈ v.gq

theorem After.push (start : Steady level s) (after : After level middle s t frames.length)
    (short : frames.length < queueLimit) (spares : Fifo.Spares queueLimit s.gq frames)
    (same : ∀ rrn ∈ s.created, last rrn = level rrn) (prepared : Prepared last t u)
    (inUse : ∀ q ∈ s.gq, q ∈ used ↔ q ∈ frame) :
    (Fifo.Spares queueLimit s.gq (frames ++ [frame]) ∧
        Pushed level last s t u (NodeCache.pushGq used u t.unused) used (frames.length + 1)) ∨
      (¬Fifo.Spares queueLimit s.gq (frames ++ [frame]) ∧
        (NodeCache.pushGq used u t.unused).usedReleased ≠ []) := by
  obtain ⟨items, length, new, queue⟩ := after.queue
  have spared : Fifo.Spares queueLimit s.gq (frames ++ [frame]) ↔ _ :=
    Fifo.spares_concat start.bounded (length ▸ short) length
  have old : ∀ q ∈ Fifo.dropped queueLimit t.gq, q ∈ s.gq := by
    intro q taken
    rw [queue] at taken
    exact Fifo.dropped_pushAll_subset start.bounded (length ▸ short) taken
  rw [← queue] at spared
  by_cases free : ∀ q ∈ Fifo.dropped queueLimit t.gq, q ∉ frame
  · left
    have fresh : t.unused ∉ u.gq := by
      rw [prepared.gq]
      intro inside
      exact absurd (after.steady.allocated _ inside).2 (lt_irrefl _)
    have spare : ∀ q ∈ Fifo.dropped queueLimit u.gq, q ∉ used := by
      rw [prepared.gq]
      intro q taken inside
      exact free q taken ((inUse q (old q taken)).mp inside)
    have allocated : t.unused < u.unused := by
      rw [prepared.unused]
      exact Nat.lt_succ_self _
    have entered := prepared.steady.push fresh (Nat.ne_of_gt after.steady.above) allocated
      prepared.named prepared.below spare
    refine ⟨spared.mpr ⟨spares, free⟩, ⟨⟨entered.steady, same, ?_, ?_, ?_⟩, entered.node, ?_, ?_⟩⟩
    · rw [entered.created]
      exact fun rrn member => prepared.created (after.created member)
    · rw [entered.unused, prepared.unused]
      exact Nat.le_succ_of_le after.unused
    · refine ⟨items ++ [t.unused], by simp [length], ?_, ?_⟩
      · intro q member
        rcases List.mem_append.mp member with inside | inside
        · exact new q inside
        · rw [List.mem_singleton.mp inside]
          exact after.unused
      · rw [entered.gq, prepared.gq, queue, Fifo.pushAll_concat]
    · intro q inside isUsed
      rw [entered.gq, prepared.gq]
      apply Fifo.mem_push (by decide) inside
      intro taken
      exact free q taken ((inUse q (old q taken)).mp isUsed)
    · rw [entered.gq]
      exact Fifo.mem_push_self (by decide)
  · right
    refine ⟨fun spares => free (spared.mp spares).2, prepared.steady.push_used ?_⟩
    push Not at free
    obtain ⟨q, taken, inside⟩ := free
    rw [prepared.gq]
    exact ⟨q, taken, (inUse q (old q taken)).mpr inside⟩

theorem created_writeIndexRecord :
    (cachePager.writeIndexRecord held s p).1.created = s.created := by
  simp only [cachePager, NodeCache.writeIndexRecord]
  split_ifs
  · rfl
  · rfl
  · split
    · rfl
    · rw [NodeCache.pushGq]
      dsimp only
      split_ifs
      · rw [NodeCache.evict]
        split <;> rfl
      · rfl

theorem created_split {order : Nat} {k : Key} {rChild : Option NodePtr} {promoted : Bool} :
    (split cachePager order held s p k rChild promoted).1.created =
      s.created ++ [(getFreeRrn s.freeRrn).1] := by
  simp only [split]
  split_ifs
  · rfl
  · exact created_writeIndexRecord
  · exact created_writeIndexRecord.trans created_writeIndexRecord
  · exact created_writeIndexRecord.trans created_writeIndexRecord

theorem fresh_of_distinct (distinct : DistinctRrns (s.created ++ [(getFreeRrn s.freeRrn).1])) :
    (getFreeRrn s.freeRrn).1 ∉ s.created := by
  intro member
  exact (List.nodup_append.mp distinct.1).2.2 _ member _ (List.mem_singleton_self _) rfl

/-- What an insertion below `p` leaves when its pushes spare the nodes in use: `p` and the nodes above
it are still in the cache. -/
structure SparedPath (level last : Rrn → Nat) (s : NodeCache) (held : List NodePtr) (p : NodePtr)
    (counted : List (List NodePtr) × Bool) (result : InsertResult NodeCache NodePtr) : Prop where
  after : After level last s result.1 counted.1.length
  spares : Fifo.Spares queueLimit s.gq counted.1
  kept : ∀ q ∈ p :: held, q ∈ result.1.gq
  node : ∀ q ∈ held, result.1.node q = s.node q
  rrn : (result.1.node p).rrn = (s.node p).rrn
  stopped : counted.2 = false → ∃ status, result.2.1 = .status status
  promoted : counted.2 = true → ∃ promoKey child, result.2 = (.promotion promoKey child, true) ∧
    child ∈ result.1.gq ∧ s.unused ≤ child ∧
    last (result.1.node child).rrn = level (s.node p).rrn

def PathPost (level : Rrn → Nat) (s : NodeCache) (held : List NodePtr) (p : NodePtr)
    (counted : List (List NodePtr) × Bool) (result : InsertResult NodeCache NodePtr) : Prop :=
  (∃ last, SparedPath level last s held p counted result) ∨
    (¬Fifo.Spares queueLimit s.gq counted.1 ∧ result.1.usedReleased ≠ [])

structure Returned (level middle : Rrn → Nat) (s t : NodeCache) (held : List NodePtr) (p : NodePtr)
    (frames : List (List NodePtr)) : Prop where
  start : Steady level s
  after : After level middle s t frames.length
  spares : Fifo.Spares queueLimit s.gq frames
  path : ∀ q ∈ p :: held, q ∈ s.gq
  kept : ∀ q ∈ p :: held, q ∈ t.gq
  apart : p ∉ held
  node : ∀ q ∈ p :: held, t.node q = s.node q

section PlaceKey

variable {order pos : Nat} {k : Key} {rChild : Option NodePtr} {promoted : Bool}

theorem Returned.placeKey_room (returned : Returned level middle s t held p frames)
    (accepts : Accepts middle t p rChild) (room : isFull order (s.node p) = false) :
    PathPost level s held p (frames, false)
      (placeKey cachePager order used t p k rChild pos promoted) := by
  have content := returned.node p (List.mem_cons_self ..)
  obtain ⟨next, placed, rewritten⟩ := @Steady.placeKey_room middle t p used order pos k rChild
    promoted returned.after.steady (returned.kept p (List.mem_cons_self ..)) accepts
    (content ▸ room)
  rw [placed]
  refine Or.inl ⟨middle, returned.after.rewritten rewritten, returned.spares, ?_, ?_, ?_, ?_, ?_⟩
  · rw [rewritten.gq]
    exact returned.kept
  · intro q member
    have other : q ≠ p := by
      rintro rfl
      exact returned.apart member
    rw [rewritten.node q other]
    exact returned.node q (List.mem_cons_of_mem _ member)
  · rw [rewritten.rrn, content]
  · intro _
    exact ⟨_, rfl⟩
  · intro impossible
    cases impossible

theorem Returned.frame_iff (returned : Returned level middle s t held p frames)
    (newer : ∀ child ∈ rChild, s.unused ≤ child) :
    ∀ q ∈ s.gq, q ∈ t.unused :: p :: (rChild.toList ++ used) ↔ q ∈ p :: used := by
  intro q member
  have old := (returned.start.allocated q member).2
  have notNew : q ≠ t.unused := Nat.ne_of_lt (Nat.lt_of_lt_of_le old returned.after.unused)
  have notChild : q ∉ rChild.toList := by
    intro inside
    exact absurd old (Nat.not_lt_of_le (newer q (Option.mem_toList.mp inside)))
  simp [notNew, notChild]

theorem Returned.placeKey_full (returned : Returned level middle s t held p frames)
    (accepts : Accepts middle t p rChild) (newer : ∀ child ∈ rChild, s.unused ≤ child)
    (inUse : held ⊆ used) (full : isFull order (s.node p) = true)
    (distinct : DistinctRrns (placeKey cachePager order used t p k rChild pos promoted).1.created) :
    PathPost level s held p (frames ++ [p :: used], true)
      (placeKey cachePager order used t p k rChild pos promoted) := by
  have here := returned.path p (List.mem_cons_self ..)
  have there := returned.kept p (List.mem_cons_self ..)
  have content := returned.node p (List.mem_cons_self ..)
  have after := returned.after
  have space : ¬(t.node p).keysNum < order - 1 := by
    rw [isFull, decide_eq_true_eq, ← content] at full
    omega
  have splits : placeKey cachePager order used t p k rChild pos promoted =
      split cachePager order used t p k rChild promoted := if_neg space
  rw [splits] at distinct ⊢
  rw [created_split] at distinct
  have fresh := fresh_of_distinct distinct
  have named : (getFreeRrn t.freeRrn).1 ≠ noRrn := by
    intro same
    exact distinct.2 (by simp [same])
  obtain ⟨next, promoKey, result, prepared, others, name, newName⟩ :=
    @Steady.split middle t p used order k rChild promoted after.steady there accepts fresh named
  rw [result]
  have levels : ∀ rrn ∈ s.created, Function.update middle (getFreeRrn t.freeRrn).1
      (middle (t.node p).rrn) rrn = level rrn := by
    intro rrn member
    rw [drawn_level fresh _ _ (after.created member)]
    exact after.same rrn member
  have same : ∀ q ∈ s.gq, q ∈ t.unused :: p :: (rChild.toList ++ used) ↔ q ∈ p :: used :=
    returned.frame_iff newer
  rcases after.push returned.start (after.short returned.start here there) returned.spares levels
    prepared same with ⟨spared, pushed⟩ | ⟨taken, released⟩
  · have inFrame : ∀ q ∈ p :: held, q ∈ t.unused :: p :: (rChild.toList ++ used) := by
      intro q member
      rcases List.mem_cons.mp member with rfl | member
      · simp
      · simp [inUse member]
    have stays : ∀ q ∈ p :: held, q ∈ (NodeCache.pushGq (t.unused :: p ::
        (rChild.toList ++ used)) next t.unused).gq := fun q member =>
      pushed.kept q (returned.kept q member) (inFrame q member)
    have length : frames.length + 1 = (frames ++ [p :: used]).length := by
      rw [List.length_append, List.length_singleton]
    refine Or.inl ⟨_, length ▸ pushed.after, spared, stays, ?_, ?_, ?_, ?_⟩
    · intro q member
      have inside := List.mem_cons_of_mem p member
      have other : q ≠ p := by
        rintro rfl
        exact returned.apart member
      rw [pushed.node q (stays q inside), others q (returned.kept q inside) other]
      exact returned.node q inside
    · rw [pushed.node p (stays p (List.mem_cons_self ..)), name, content]
    · intro impossible
      cases impossible
    · intro _
      refine ⟨promoKey, t.unused, rfl, pushed.new, after.unused, ?_⟩
      rw [pushed.node t.unused pushed.new, newName, Function.update_self, content]
      exact after.same _ (returned.start.named p here)
  · exact Or.inr ⟨taken, released⟩

theorem Returned.placeKey (returned : Returned level middle s t held p frames)
    (accepts : Accepts middle t p rChild) (newer : ∀ child ∈ rChild, s.unused ≤ child)
    (inUse : held ⊆ used)
    (distinct : DistinctRrns (placeKey cachePager order used t p k rChild pos promoted).1.created) :
    PathPost level s held p
      (if isFull order (s.node p) then (frames ++ [p :: used], true) else (frames, false))
      (placeKey cachePager order used t p k rChild pos promoted) := by
  cases full : isFull order (s.node p) with
  | false => exact returned.placeKey_room accepts full
  | true => exact returned.placeKey_full accepts newer inUse full distinct

end PlaceKey

theorem PathPost.still (steady : Steady level s) (path : ∀ q ∈ p :: held, q ∈ s.gq)
    (status : BtreeStatus) (promoted : Bool) :
    PathPost level s held p ([], false) (s, .status status, promoted) := by
  refine Or.inl ⟨level, .refl steady, Fifo.spares_nil, path, fun _ _ => rfl, rfl,
    fun _ => ⟨status, rfl⟩, fun impossible => ?_⟩
  cases impossible

theorem Steady.load (steady : Steady level s) (rrn : Rrn) :
    s.loadBtreeNode held rrn = (s, s.searchGq rrn) := by
  rw [NodeCache.loadBtreeNode]
  cases search : s.searchGq rrn with
  | none => rfl
  | some child => exact if_pos (steady.allocated child (NodeCache.searchGq_some search).1).1

theorem Steady.child_below {child : NodePtr} {slot : Nat} (steady : Steady level s)
    (usable : noRrn ∉ s.created) (member : p ∈ s.gq)
    (search : s.searchGq ((s.node p).child slot) = some child) :
    child ∈ s.gq ∧ level (s.node child).rrn < level (s.node p).rrn := by
  obtain ⟨inside, name⟩ := NodeCache.searchGq_some search
  refine ⟨inside, (steady.below p member _ (BtreeNode.child_mem name.symm ?_)).2⟩
  intro same
  exact usable (same ▸ steady.named child inside)

section Descent

variable {order fuel pos : Nat} {root : Option NodePtr} {k : Key} {promoted : Bool}
  {child : NodePtr} {below : InsertResult NodeCache NodePtr}
  {counted : List (List NodePtr) × Bool}

def cachedAbove (order : Nat) (root : Option NodePtr) (held : List NodePtr) (p child : NodePtr)
    (pos : Nat) (below : InsertResult NodeCache NodePtr) : InsertResult NodeCache NodePtr :=
  match below.2.1 with
  | .status status => (dropUncached cachePager root below.1 child, .status status, below.2.2)
  | .promotion promoKey tempChild =>
      placeKey cachePager order (child :: held) (dropUncached cachePager root below.1 child) p
        promoKey (some tempChild) pos below.2.2

theorem cachedAbove_grown : Grown below.1 (cachedAbove order root held p child pos below).1 := by
  have keeps := cachePager_grown below.1
  have dropped : Grown below.1 (dropUncached cachePager root below.1 child) :=
    keeps.dropUncached (by simp) child (Grown.refl below.1)
  rw [cachedAbove]
  split
  · exact dropped
  · exact (keeps.placeKey order _ _ _ dropped trivial (by simp)).state

def framesAbove (order : Nat) (node : BtreeNode) (used : List NodePtr)
    (counted : List (List NodePtr) × Bool) : List (List NodePtr) × Bool :=
  if counted.2 && isFull order node then (counted.1 ++ [used], true) else (counted.1, false)

theorem cachedAbove_post (steady : Steady level s) (path : ∀ q ∈ p :: held, q ∈ s.gq)
    (apart : p ∉ held) (branch : level (s.node child).rrn < level (s.node p).rrn)
    (inner : PathPost level s (p :: held) child counted below)
    (distinct : DistinctRrns (cachedAbove order root held p child pos below).1.created) :
    PathPost level s held p (framesAbove order (s.node p) (p :: child :: held) counted)
      (cachedAbove order root held p child pos below) := by
  rcases inner with ⟨middle, spared⟩ | ⟨taken, released⟩
  · have cached : dropUncached cachePager root below.1 child = below.1 := by
      apply if_neg
      rintro ⟨_, uncached⟩
      have found := NodeCache.searchGq_isSome (spared.kept child (List.mem_cons_self ..))
      rw [show cachePager.cached below.1 child = _ from found] at uncached
      cases uncached
    have kept : ∀ q ∈ p :: held, q ∈ below.1.gq := fun q member =>
      spared.kept q (List.mem_cons_of_mem _ member)
    obtain ⟨result, insertion, flag⟩ := below
    obtain ⟨frames, splits⟩ := counted
    cases splits with
    | false =>
        obtain ⟨status, shape⟩ := spared.stopped rfl
        cases shape
        have whole : cachedAbove order root held p child pos (result, .status status, flag) =
            (result, .status status, flag) := congrArg (·, _) cached
        rw [whole]
        refine Or.inl ⟨middle, spared.after, spared.spares, kept, fun q member =>
          spared.node q (List.mem_cons_of_mem _ member), ?_, fun _ => ⟨status, rfl⟩, ?_⟩
        · rw [spared.node p (List.mem_cons_self ..)]
        · intro impossible
          cases impossible
    | true =>
        obtain ⟨promoKey, new, shape, inside, newer, height⟩ := spared.promoted rfl
        cases shape
        have whole : cachedAbove order root held p child pos (result, .promotion promoKey new, true) =
            placeKey cachePager order (child :: held) result p promoKey (some new) pos true :=
          congrArg (fun s => placeKey cachePager order (child :: held) s p promoKey (some new) pos
            true) cached
        rw [whole] at distinct ⊢
        have content := spared.node p (List.mem_cons_self ..)
        refine Returned.placeKey ⟨steady, spared.after, spared.spares, path, kept, apart, spared.node⟩
          ?_ ?_ (List.subset_cons_self _ _) distinct
        · refine ⟨fun none => (by cases none), ?_⟩
          rintro _ ⟨⟩
          refine ⟨spared.after.steady.named new inside, ?_⟩
          rw [height, content, spared.after.same _ (steady.named p (path p (List.mem_cons_self ..)))]
          exact branch
        · rintro _ ⟨⟩
          exact newer
  · refine Or.inr ⟨fun spares => taken ?_, cachedAbove_grown.released_ne_nil released⟩
    rw [framesAbove] at spares
    split_ifs at spares
    · exact spares.of_append
    · exact spares

theorem insertKey_above (new : (searchInBtreeNode (s.node p) k.id).1 ≠ .foundKey)
    (branch : (s.node p).leaf = false) (steady : Steady level s)
    (search : s.searchGq ((s.node p).child (searchInBtreeNode (s.node p) k.id).2) = some child) :
    insertKey cachePager order root (fuel + 1) held s p k promoted =
      cachedAbove order root held p child (searchInBtreeNode (s.node p) k.id).2
        (insertKey cachePager order root fuel (p :: held) s child k promoted) := by
  have content : cachePager.node s p = s.node p := rfl
  have loaded : cachePager.loadBtreeNode (p :: held) s
      ((s.node p).child (searchInBtreeNode (s.node p) k.id).2) = (s, some child) :=
    (steady.load _).trans (congrArg (s, ·) search)
  simp only [insertKey, content, new, branch, loaded, Bool.false_eq_true, ↓reduceIte]
  obtain ⟨after, insertion, flag⟩ :=
    insertKey cachePager order root fuel (p :: held) s child k promoted
  cases insertion <;> rfl

theorem insertKey_known (found : (searchInBtreeNode (s.node p) k.id).1 = .foundKey) :
    insertKey cachePager order root (fuel + 1) held s p k promoted =
      (s, .status .errorDuplicate, promoted) := by
  have content : cachePager.node s p = s.node p := rfl
  simp only [insertKey, content, found, ↓reduceIte]

theorem insertKey_inLeaf (new : (searchInBtreeNode (s.node p) k.id).1 ≠ .foundKey)
    (leaf : (s.node p).leaf = true) :
    insertKey cachePager order root (fuel + 1) held s p k promoted =
      placeKey cachePager order held s p k none (searchInBtreeNode (s.node p) k.id).2
        promoted := by
  have content : cachePager.node s p = s.node p := rfl
  simp only [insertKey, content, new, leaf, ↓reduceIte]

theorem insertKey_uncached (new : (searchInBtreeNode (s.node p) k.id).1 ≠ .foundKey)
    (branch : (s.node p).leaf = false) (steady : Steady level s)
    (search : s.searchGq ((s.node p).child (searchInBtreeNode (s.node p) k.id).2) = none) :
    insertKey cachePager order root (fuel + 1) held s p k promoted =
      (s, .status .errorIo, promoted) := by
  have content : cachePager.node s p = s.node p := rfl
  have loaded : cachePager.loadBtreeNode (p :: held) s
      ((s.node p).child (searchInBtreeNode (s.node p) k.id).2) = (s, none) :=
    (steady.load _).trans (congrArg (s, ·) search)
  simp only [insertKey, content, new, branch, loaded, Bool.false_eq_true, ↓reduceIte]

theorem splitFrames_known (found : (searchInBtreeNode (s.node p) k.id).1 = .foundKey) :
    splitFrames order s k.id (fuel + 1) held p = ([], false) := by
  simp only [splitFrames, found, ↓reduceIte]

theorem splitFrames_inLeaf (new : (searchInBtreeNode (s.node p) k.id).1 ≠ .foundKey)
    (leaf : (s.node p).leaf = true) :
    splitFrames order s k.id (fuel + 1) held p =
      if isFull order (s.node p) then ([] ++ [p :: held], true) else ([], false) := by
  simp only [splitFrames, new, leaf, ↓reduceIte, List.nil_append]

theorem splitFrames_uncached (new : (searchInBtreeNode (s.node p) k.id).1 ≠ .foundKey)
    (branch : (s.node p).leaf = false)
    (search : s.searchGq ((s.node p).child (searchInBtreeNode (s.node p) k.id).2) = none) :
    splitFrames order s k.id (fuel + 1) held p = ([], false) := by
  simp only [splitFrames, new, branch, search, Bool.false_eq_true, ↓reduceIte]

theorem splitFrames_above (new : (searchInBtreeNode (s.node p) k.id).1 ≠ .foundKey)
    (branch : (s.node p).leaf = false)
    (search : s.searchGq ((s.node p).child (searchInBtreeNode (s.node p) k.id).2) = some child) :
    splitFrames order s k.id (fuel + 1) held p =
      framesAbove order (s.node p) (p :: child :: held)
        (splitFrames order s k.id fuel (p :: held) child) := by
  simp only [splitFrames, new, branch, search, Bool.false_eq_true, ↓reduceIte]
  rfl

/-- `insert_key` below a node whose path is in the cache: the path stays there, or a push has released
a node in use. -/
theorem Steady.insertKey (steady : Steady level s) (path : ∀ q ∈ p :: held, q ∈ s.gq)
    (higher : ∀ q ∈ held, level (s.node p).rrn < level (s.node q).rrn)
    (distinct : DistinctRrns
      (insertKey cachePager order root fuel held s p k promoted).1.created) :
    PathPost level s held p (splitFrames order s k.id fuel held p)
      (insertKey cachePager order root fuel held s p k promoted) := by
  induction fuel generalizing held p with
  | zero => exact .still steady path _ _
  | succ fuel ih =>
      have here := path p (List.mem_cons_self ..)
      have apart : p ∉ held := fun member => lt_irrefl _ (higher p member)
      by_cases found : (searchInBtreeNode (s.node p) k.id).1 = .foundKey
      · rw [insertKey_known found, splitFrames_known found]
        exact .still steady path _ _
      by_cases leaf : (s.node p).leaf = true
      · rw [insertKey_inLeaf found leaf] at distinct
        rw [insertKey_inLeaf found leaf, splitFrames_inLeaf found leaf]
        have returned : Returned level level s s held p [] :=
          ⟨steady, .refl steady, Fifo.spares_nil, path, path, apart, fun _ _ => rfl⟩
        exact returned.placeKey ⟨fun _ => leaf, by simp⟩ (by simp) (List.Subset.refl _) distinct
      have branch : (s.node p).leaf = false := by simpa using leaf
      cases search : s.searchGq ((s.node p).child (searchInBtreeNode (s.node p) k.id).2) with
      | none =>
          rw [insertKey_uncached found branch steady search,
            splitFrames_uncached found branch search]
          exact .still steady path _ _
      | some child =>
          rw [insertKey_above found branch steady search] at distinct
          rw [insertKey_above found branch steady search, splitFrames_above found branch search]
          have inner := cachedAbove_grown.distinct distinct
          have usable : noRrn ∉ s.created := by
            have below : Pager.Keeps.Inserted (Grown s) (fun _ => True)
                (Gaveta.insertKey cachePager order root fuel (p :: held) s child k promoted) :=
              (cachePager_grown s).insertKey order (by simp) fuel promoted (Grown.refl s) trivial
                (by simp)
            exact (below.state.distinct inner).2
          obtain ⟨inside, lower⟩ := steady.child_below usable here search
          refine cachedAbove_post steady path apart lower (ih ?_ ?_ inner) distinct
          · intro q member
            rcases List.mem_cons.mp member with rfl | member
            · exact inside
            · exact path q member
          · intro q member
            rcases List.mem_cons.mp member with rfl | member
            · exact lower
            · exact lower.trans (higher q member)

end Descent

theorem Steady.prepare (steady : Steady level s) (height : Nat) {content : BtreeNode}
    (fresh : (getFreeRrn s.freeRrn).1 ∉ s.created) (name : content.rrn = (getFreeRrn s.freeRrn).1)
    (below : ∀ child ∈ content.children, child ∈ s.created ∧ level child < height) :
    Prepared (Function.update level (getFreeRrn s.freeRrn).1 height) s
        (((cachePager.getFreeRrn s).1.allocBtreeNode content).wrote s.unused) ∧
      cachePager.writeIndexRecord held ((cachePager.getFreeRrn s).1.allocBtreeNode content)
          s.unused =
        (NodeCache.pushGq held
          (((cachePager.getFreeRrn s).1.allocBtreeNode content).wrote s.unused) s.unused,
          .success) := by
  have allocated := (steady.draw height fresh).allocBtreeNode content
  have node : ((cachePager.getFreeRrn s).1.allocBtreeNode content).node s.unused = content := by
    rw [NodeCache.node_allocBtreeNode]
    exact if_pos rfl
  have absent : ((cachePager.getFreeRrn s).1.allocBtreeNode content).searchGq
      (((cachePager.getFreeRrn s).1.allocBtreeNode content).node s.unused).rrn = none := by
    rw [NodeCache.searchGq_eq_none_iff, node, name]
    intro q member same
    have other : q ≠ (cachePager.getFreeRrn s).1.unused := Nat.ne_of_lt (steady.allocated q member).2
    rw [NodeCache.node_allocBtreeNode, if_neg other] at same
    exact fresh (same ▸ steady.named q member)
  refine ⟨⟨allocated.wrote s.unused, rfl, List.subset_append_left _ _, rfl, ?_, ?_⟩,
    NodeCache.writeIndexRecord_new allocated.works (Nat.ne_of_gt steady.above) absent⟩
  · rw [NodeCache.node_wrote, node, name]
    exact List.mem_append_right _ (List.mem_singleton_self _)
  · rw [NodeCache.node_wrote, node, name, Function.update_self]
    intro child inside
    obtain ⟨known, lower⟩ := below child inside
    rw [drawn_level fresh _ _ known]
    exact ⟨List.mem_append_left _ known, lower⟩

theorem NodeCache.writeIndexRecord_success (works : ∀ n, s.ioFails n = false)
    (notNull : p ≠ nullPtr) : (s.writeIndexRecord held p).2 = .success := by
  simp only [NodeCache.writeIndexRecord, notNull, works, Bool.false_eq_true, ↓reduceIte]
  split <;> rfl

end Run

end Gaveta
