import Gaveta.BTree.Dictionary
import Gaveta.BTree.Eviction
import Gaveta.BTree.Synced

/-!
The operations of a tree on the cache and on memory that keeps every node: while the cache has room for
all nodes, no call tells the two apart.
-/

namespace Gaveta

def Fits (s : NodeCache) : Prop := DistinctRrns s.created ∧ s.created.length < cacheCapacity

structure Follows (s t : NodeCache) : Prop where
  synced : Synced [] t
  kept : ∀ p ∈ s.gq, p ∈ t.gq ∧ (t.node p).rrn = (s.node p).rrn

def residentInsertion (s : NodeCache) : Insertion NodePtr → Insertion Rrn
  | .status status => .status status
  | .promotion promoKey rChild => .promotion promoKey (s.node rChild).rrn

structure InsertFollows (s : NodeCache) (result : InsertResult NodeCache NodePtr)
    (plain : InsertResult Resident Rrn) : Prop where
  follows : Follows s result.1
  known : ∀ promoKey rChild, result.2.1 = .promotion promoKey rChild → rChild ∈ result.1.gq
  same : plain = (result.1.resident, residentInsertion result.1 result.2.1, result.2.2)

theorem Fits.before {s t : NodeCache} (fits : Fits t) (grown : Grown s t) : Fits s :=
  ⟨grown.distinct fits.1, lt_of_le_of_lt grown.created.length_le fits.2⟩

theorem Follows.refl {s : NodeCache} (synced : Synced [] s) : Follows s s :=
  ⟨synced, fun _ member => ⟨member, rfl⟩⟩

theorem Follows.trans {s t u : NodeCache} (first : Follows s t) (second : Follows t u) :
    Follows s u := by
  refine ⟨second.synced, fun p member => ?_⟩
  obtain ⟨inside, name⟩ := first.kept p member
  obtain ⟨still, again⟩ := second.kept p inside
  exact ⟨still, again.trans name⟩

section Insert

variable {s t : NodeCache} {p : NodePtr} {held : List NodePtr} {names : List Rrn}
  {order pos : Nat} {k : Key} {rChild : Option NodePtr} {promoted : Bool}

theorem Synced.slots (synced : Synced [] s) (known : ∀ q ∈ rChild, q ∈ s.gq) :
    (rChild.map fun q => (s.node q).rrn).map (fun child => (s.resident.read child).rrn) =
      rChild.map fun q => (s.node q).rrn := by
  rw [Option.map_map]
  refine Option.map_congr fun q same => ?_
  exact congrArg BtreeNode.rrn (synced.read (known q same))

theorem Resident.store_comm {a b : Rrn} (s : Resident) (first second : BtreeNode)
    (different : a ≠ b) : (s.store a first).store b second = (s.store b second).store a first := by
  simp only [Resident.store, Resident.mk.injEq, and_true]
  exact Function.update_comm different _ _ _

theorem Synced.rewrite {content : BtreeNode} (synced : Synced [] s) (member : p ∈ s.gq)
    (name : content.rrn = (s.node p).rrn) :
    ∃ t, (s.setNode p content).writeIndexRecord held p = (t, .success) ∧ Follows s t ∧
      t.gq = s.gq ∧ t.node = (s.setNode p content).node ∧ t.created = s.created ∧
      t.freeRrn = s.freeRrn ∧ t.unused = s.unused ∧
      t.resident = (s.resident.store (s.node p).rrn content).wrote := by
  obtain ⟨written, clean⟩ := @Synced.write (s.setNode p content) p [] held (synced.setNode name)
    member
  refine ⟨_, written, ⟨clean, fun q inside => ⟨inside, ?_⟩⟩, rfl, rfl, rfl, rfl, rfl, ?_⟩
  · exact Synced.node_set content name q
  · rw [Synced.wrote_resident, synced.setNode_resident member name]

theorem Synced.placeKey_room (synced : Synced [] s) (member : p ∈ s.gq)
    (known : ∀ q ∈ rChild, q ∈ s.gq) (room : (s.node p).keysNum < order - 1) :
    InsertFollows s (placeKey cachePager order held s p k rChild pos promoted)
      (placeKey residentPager order names s.resident (s.node p).rrn k
        (rChild.map fun q => (s.node q).rrn) pos promoted) := by
  have works : s.resident.ioFails s.resident.writes = false := synced.works _
  obtain ⟨t, written, follows, _, _, _, _, _, plain⟩ :=
    @Synced.rewrite s p (p :: (rChild.toList ++ held))
      (insertInBtreeNode (s.node p) k (rChild.map fun q => (s.node q).rrn) pos) synced member rfl
  have cached : placeKey cachePager order held s p k rChild pos promoted =
      (t, .status .success, false) := by
    simp only [placeKey, cachePager_node, room, ↓reduceIte, cachePager_setNode, cachePager_write,
      written]
  rw [cached]
  refine ⟨follows, by simp, ?_⟩
  rw [Gaveta.placeKey_room (by rw [synced.read member]; exact room), synced.slots known,
    synced.read member, works, plain]
  rfl

theorem Synced.fresh {new : Rrn} {content : BtreeNode} (synced : Synced [] s)
    (unused : s.unused = p + 1) (notNull : p ≠ nullPtr) (node : s.node p = content)
    (name : content.rrn = new) (created : new ∈ s.created)
    (absent : ∀ q ∈ s.gq, (s.node q).rrn ≠ new) (room : s.created.length < cacheCapacity) :
    ∃ t, s.writeIndexRecord held p = (t, .success) ∧ Follows s t ∧ p ∈ t.gq ∧
      t.node = s.node ∧ t.resident = (s.resident.store new content).wrote := by
  obtain ⟨t, written, clean, queue, nodes, _, plain⟩ :=
    @Synced.create s p held synced notNull (unused ▸ Nat.lt_succ_self p)
      (by rw [node, name]; exact created) (by rw [node, name]; exact absent) room
  refine ⟨t, written, ⟨clean, fun q member => ⟨?_, by rw [nodes]⟩⟩, ?_, nodes, ?_⟩
  · rw [queue]
    exact List.mem_append_left _ member
  · rw [queue]
    exact List.mem_append_right _ (List.mem_singleton_self p)
  · rw [plain, node, name]

theorem Synced.split {halves : Halves} {new : Rrn} (synced : Synced [] s) (member : p ∈ s.gq)
    (taken : (getFreeRrn s.freeRrn).1 = new)
    (cut : splitNode order (s.node p) k (rChild.map fun q => (s.node q).rrn) new = halves)
    (fits : DistinctRrns (s.created ++ [new]) ∧ (s.created ++ [new]).length < cacheCapacity) :
    ∃ t, split cachePager order held s p k rChild promoted =
        (t, .promotion halves.promoKey s.unused, true) ∧
      Follows s t ∧ s.unused ∈ t.gq ∧ (t.node s.unused).rrn = new ∧
      t.resident = (storeHalves s.resident (s.node p).rrn halves).wrote.wrote := by
  subst taken
  have notNull : s.unused ≠ nullPtr := Nat.ne_of_gt synced.above
  have unused : s.unused ≠ p := Nat.ne_of_gt (synced.allocated p member).2
  have leftName : halves.left.rrn = (s.node p).rrn := by rw [← cut, splitNode_left_rrn]
  have rightName : halves.right.rrn = (getFreeRrn s.freeRrn).1 := by
    rw [← cut, splitNode_right_rrn]
  have new : (getFreeRrn s.freeRrn).1 ∉ s.created := fresh_of_distinct fits.1
  have usable : (getFreeRrn s.freeRrn).1 ≠ noRrn := fun same =>
    fits.1.2 (List.mem_append_right _ (by simp [same]))
  have drawn := synced.draw.alloc halves.right
  have before : ((cachePager.getFreeRrn s).1.allocBtreeNode halves.right).node p = s.node p :=
    synced.draw.node_alloc member
  obtain ⟨u, first, follows, queue, nodes, created, _, above, plain⟩ :=
    @Synced.rewrite _ p (s.unused :: p :: (rChild.toList ++ held)) halves.left drawn member
      (by rw [before]; exact leftName)
  rw [before] at plain
  have content : u.node s.unused = halves.right := by
    rw [nodes, NodeCache.node_setNode, if_neg unused, NodeCache.node_allocBtreeNode]
    exact if_pos rfl
  have known : (getFreeRrn s.freeRrn).1 ∈ u.created := by
    rw [created]
    exact List.mem_append_right _ (List.mem_singleton_self _)
  obtain ⟨t, second, later, inside, kept, stored⟩ :=
    @Synced.fresh u s.unused (s.unused :: p :: (rChild.toList ++ held)) _ _ follows.synced above
      notNull content rightName known (by
        intro q inside same
        rw [queue] at inside
        have name := (follows.kept q inside).2
        rw [same, synced.draw.node_alloc inside] at name
        exact new (name ▸ synced.named q inside)) (by rw [created]; exact fits.2)
  refine ⟨t, ?_, ⟨later.synced, fun q here => ?_⟩, inside, ?_, ?_⟩
  · have drawRrn : (cachePager.getFreeRrn s).2 = (getFreeRrn s.freeRrn).1 := rfl
    have cut : splitNode order ((cachePager.getFreeRrn s).1.node p) k
        (rChild.map fun q => ((cachePager.getFreeRrn s).1.node q).rrn)
        (getFreeRrn s.freeRrn).1 = halves := cut
    have address : (cachePager.getFreeRrn s).1.unused = s.unused := rfl
    simp only [Gaveta.split, drawRrn, usable, ↓reduceIte, cachePager_node, cut, cachePager_alloc,
      cachePager_setNode, cachePager_write, address, first, second, ne_eq, not_true_eq_false]
  · obtain ⟨still, name⟩ := follows.kept q here
    obtain ⟨again, same⟩ := later.kept q still
    exact ⟨again, by rw [same, name, synced.draw.node_alloc here]; rfl⟩
  · rw [kept, content, rightName]
  · have different : (s.node p).rrn ≠ (getFreeRrn s.freeRrn).1 := fun same =>
      new (same ▸ synced.named p member)
    have drew : ((cachePager.getFreeRrn s).1.allocBtreeNode halves.right).resident =
        s.resident.take := synced.draw.alloc_resident halves.right
    rw [stored, plain, drew, storeHalves, rightName,
      Resident.store_comm _ halves.right halves.left different.symm]
    rfl

theorem Synced.placeKey (synced : Synced [] s) (member : p ∈ s.gq)
    (known : ∀ q ∈ rChild, q ∈ s.gq)
    (fits : Fits (placeKey cachePager order held s p k rChild pos promoted).1) :
    InsertFollows s (placeKey cachePager order held s p k rChild pos promoted)
      (placeKey residentPager order names s.resident (s.node p).rrn k
        (rChild.map fun q => (s.node q).rrn) pos promoted) := by
  by_cases room : (s.node p).keysNum < order - 1
  · exact synced.placeKey_room member known room
  have whole : Gaveta.placeKey cachePager order held s p k rChild pos promoted =
      Gaveta.split cachePager order held s p k rChild promoted := if_neg room
  rw [whole] at fits ⊢
  have drawn := fits.1
  have few := fits.2
  rw [created_split] at drawn few
  have usable : (getFreeRrn s.freeRrn).1 ≠ noRrn := fun same =>
    drawn.2 (List.mem_append_right _ (by simp [same]))
  obtain ⟨t, cached, follows, inside, name, plain⟩ :=
    @Synced.split s p held order k rChild promoted _ _ synced member rfl rfl ⟨drawn, few⟩
  rw [cached]
  refine ⟨follows, ?_, ?_⟩
  · rintro _ _ ⟨⟩
    exact inside
  · have works : ∀ n, s.resident.ioFails n = false := synced.works
    have full : ¬(s.resident.read (s.node p).rrn).keysNum < order - 1 := by
      rw [synced.read member]
      exact room
    rw [Gaveta.placeKey_full full rfl rfl, synced.slots known, synced.read member]
    simp only [NodeCache.resident_freeRrn, usable, ↓reduceIte, works, Bool.false_eq_true,
      residentInsertion, name, plain]

theorem InsertFollows.still (synced : Synced [] s) (status : BtreeStatus) :
    InsertFollows s (s, .status status, promoted) (s.resident, .status status, promoted) :=
  ⟨.refl synced, by simp, rfl⟩

theorem Synced.dropUncached (synced : Synced [] s) (member : p ∈ s.gq) (root : Option NodePtr) :
    dropUncached cachePager root s p = s := by
  apply if_neg
  rintro ⟨_, uncached⟩
  rw [cachePager_cached, synced.search member] at uncached
  cases uncached

theorem InsertFollows.above {child : NodePtr} {root : Option NodePtr}
    {below : InsertResult NodeCache NodePtr} {plain : InsertResult Resident Rrn}
    (inner : InsertFollows s below plain) (member : p ∈ s.gq) (inside : child ∈ s.gq)
    (fits : Fits (cachedAbove order root held p child pos below).1) :
    InsertFollows s (cachedAbove order root held p child pos below)
      (insertAbove order names (s.node p).rrn (s.node child).rrn pos plain) := by
  obtain ⟨t, insertion, flag⟩ := below
  have synced : Synced [] t := inner.follows.synced
  obtain ⟨here, name⟩ := inner.follows.kept p member
  have dropped := synced.dropUncached (inner.follows.kept child inside).1 root
  obtain rfl := inner.same
  cases insertion with
  | status status =>
      have whole : cachedAbove order root held p child pos (t, .status status, flag) =
          (t, .status status, flag) := congrArg (·, _) dropped
      rw [whole]
      exact ⟨inner.follows, by simp, rfl⟩
  | promotion promoKey new =>
      have known : ∀ q ∈ some new, q ∈ t.gq := by
        rintro _ ⟨⟩
        exact inner.known promoKey new rfl
      have whole : cachedAbove order root held p child pos (t, .promotion promoKey new, flag) =
          Gaveta.placeKey cachePager order (child :: held) t p promoKey (some new) pos flag :=
        congrArg (fun s => Gaveta.placeKey cachePager order (child :: held) s p promoKey (some new)
          pos flag) dropped
      rw [whole] at fits ⊢
      have placed : InsertFollows t _ (Gaveta.placeKey residentPager order
          ((s.node child).rrn :: names) t.resident (t.node p).rrn promoKey
            ((some new).map fun q => (t.node q).rrn) pos flag) :=
        synced.placeKey here known fits
      refine ⟨inner.follows.trans placed.follows, placed.known, ?_⟩
      rw [← placed.same, name]
      rfl

theorem insertKey_reaches {fuel : Nat} {root : Option NodePtr} {child : NodePtr}
    (synced : Synced [] s) (new : (searchInBtreeNode (s.node p) k.id).1 ≠ .foundKey)
    (branch : (s.node p).leaf = false)
    (search : s.searchGq ((s.node p).child (searchInBtreeNode (s.node p) k.id).2) = some child) :
    insertKey cachePager order root (fuel + 1) held s p k promoted =
      cachedAbove order root held p child (searchInBtreeNode (s.node p) k.id).2
        (insertKey cachePager order root fuel (p :: held) s child k promoted) := by
  simp only [insertKey, cachePager_node, new, branch, cachePager_load, synced.load, search,
    Bool.false_eq_true, ↓reduceIte]
  obtain ⟨after, insertion, flag⟩ :=
    insertKey cachePager order root fuel (p :: held) s child k promoted
  cases insertion <;> rfl

theorem Synced.insertKey {fuel : Nat} {root : Option NodePtr} {top : Option Rrn}
    (synced : Synced [] s) (member : p ∈ s.gq)
    (fits : Fits (insertKey cachePager order root fuel held s p k promoted).1) :
    InsertFollows s (insertKey cachePager order root fuel held s p k promoted)
      (insertKey residentPager order top fuel names s.resident (s.node p).rrn k promoted) := by
  induction fuel generalizing held p names with
  | zero => exact .still synced _
  | succ fuel ih =>
      have content := synced.read member
      by_cases found : (searchInBtreeNode (s.node p) k.id).1 = .foundKey
      · rw [insertKey_known found, insertKey_found (by rw [content]; exact found)]
        exact .still synced _
      by_cases leaf : (s.node p).leaf = true
      · rw [insertKey_inLeaf found leaf] at fits ⊢
        rw [insertKey_leaf (by rw [content]; exact found) (by rw [content]; exact leaf), content]
        exact synced.placeKey member (by simp) fits
      have branch : (s.node p).leaf = false := by simpa using leaf
      cases search : s.searchGq ((s.node p).child (searchInBtreeNode (s.node p) k.id).2) with
      | none =>
          have cached : Gaveta.insertKey cachePager order root (fuel + 1) held s p k promoted =
              (s, .status .errorIo, promoted) := by
            simp only [Gaveta.insertKey, cachePager_node, found, branch, cachePager_load, synced.load,
              search, Bool.false_eq_true, ↓reduceIte]
          rw [cached, insertKey_missing (by rw [content]; exact found) (by rw [content]; exact branch)
            (by rw [content, NodeCache.resident_nodes, search]; simp)]
          exact .still synced _
      | some child =>
          obtain ⟨inside, name⟩ := NodeCache.searchGq_some search
          rw [insertKey_reaches synced found branch search] at fits ⊢
          rw [insertKey_branch (by rw [content]; exact found) (by rw [content]; exact branch)
            (by rw [content, ← name]) (by rw [synced.nodes inside]; rfl), content]
          exact (ih inside (fits.before cachedAbove_grown)).above member inside fits

end Insert

def BTree.resident (b : CachedTree) : BTree Resident Rrn where
  root := b.root.map fun p => (b.io.node p).rrn
  config := b.config
  io := b.io.resident

structure SyncedTree (b : CachedTree) : Prop where
  synced : Synced [] b.io
  root : ∀ root, b.root = some root → root ∈ b.io.gq

namespace SyncedTree

open CachedTree

variable {b : CachedTree} {id : CString} {rrn : Rrn} {root : NodePtr}

theorem newRoot {s : NodeCache} {content : BtreeNode} {held : List NodePtr} (synced : Synced [] s)
    (name : content.rrn = (getFreeRrn s.freeRrn).1)
    (fits : DistinctRrns (s.created ++ [(getFreeRrn s.freeRrn).1]) ∧
      (s.created ++ [(getFreeRrn s.freeRrn).1]).length < cacheCapacity) :
    ∃ t, ((cachePager.getFreeRrn s).1.allocBtreeNode content).writeIndexRecord held s.unused =
        (t, .success) ∧ Follows s t ∧ s.unused ∈ t.gq ∧ t.node s.unused = content ∧
      t.resident = (s.resident.take.store (getFreeRrn s.freeRrn).1 content).wrote := by
  have new : (getFreeRrn s.freeRrn).1 ∉ s.created := fresh_of_distinct fits.1
  have node : ((cachePager.getFreeRrn s).1.allocBtreeNode content).node s.unused = content := by
    rw [NodeCache.node_allocBtreeNode]
    exact if_pos rfl
  obtain ⟨t, written, follows, inside, nodes, plain⟩ :=
    @Synced.fresh ((cachePager.getFreeRrn s).1.allocBtreeNode content) s.unused held _ _
      (synced.draw.alloc content) rfl (Nat.ne_of_gt synced.above) node name
      (List.mem_append_right _ (List.mem_singleton_self _)) (by
        intro q member same
        rw [synced.draw.node_alloc member] at same
        exact new (same ▸ synced.named q member)) fits.2
  refine ⟨t, written, ⟨follows.synced, fun q member => ?_⟩, inside, by rw [nodes, node], ?_⟩
  · obtain ⟨still, same⟩ := follows.kept q member
    exact ⟨still, same.trans (congrArg BtreeNode.rrn (synced.draw.node_alloc member))⟩
  · rw [plain, synced.draw.alloc_resident]
    rfl

theorem createRoot (tree : SyncedTree b) (k : Key)
    (fits : Fits (createRoot cachePager b k).1.io) :
    SyncedTree (createRoot cachePager b k).1 ∧
      createRoot residentPager b.resident k =
        ((createRoot cachePager b k).1.resident, (createRoot cachePager b k).2) := by
  have drawn := fits.1
  have few := fits.2
  rw [Gaveta.createRoot, created_writeIndexRecord] at drawn few
  obtain ⟨t, written, follows, inside, content, plain⟩ :=
    @newRoot b.io
      { keys := [k], rrn := (getFreeRrn b.io.freeRrn).1, children := [], nextLeaf := noRrn,
        leaf := true } [b.io.unused] tree.synced rfl ⟨drawn, few⟩
  have cached : Gaveta.createRoot cachePager b k =
      ({ b with root := some b.io.unused, io := t }, some .success) := by
    have result : cachePager.writeIndexRecord [b.io.unused]
        ((cachePager.getFreeRrn b.io).1.allocBtreeNode
          { keys := [k], rrn := (getFreeRrn b.io.freeRrn).1, children := [], nextLeaf := noRrn,
            leaf := true }) b.io.unused = (t, .success) := written
    exact congrArg (fun written : NodeCache × BtreeStatus =>
      (({ b with root := some b.io.unused, io := written.1 }, some written.2) :
        CachedTree × Option BtreeStatus)) result
  have works : b.resident.io.ioFails b.resident.io.writes = false := tree.synced.works _
  rw [cached, createRoot_resident, works]
  refine ⟨⟨follows.synced, ?_⟩, ?_⟩
  · rintro _ ⟨⟩
    exact inside
  · simp only [BTree.resident, Option.map_some, content, plain]
    rfl

theorem growRoot {s : NodeCache} {rChild : NodePtr} {promoKey : Key} (synced : Synced [] s)
    (member : root ∈ s.gq) (inside : rChild ∈ s.gq)
    (fits : Fits (growRoot cachePager b root s promoKey rChild).1.io) :
    SyncedTree (growRoot cachePager b root s promoKey rChild).1 ∧
      growRoot residentPager b.resident (s.node root).rrn s.resident promoKey (s.node rChild).rrn =
        ((growRoot cachePager b root s promoKey rChild).1.resident,
          (growRoot cachePager b root s promoKey rChild).2) := by
  rw [growRoot_cached synced.works synced.above] at fits ⊢
  have drawn := fits.1
  have few := fits.2
  rw [created_writeIndexRecord] at drawn few
  obtain ⟨t, written, follows, new, content, plain⟩ :=
    @newRoot s
      { keys := [promoKey], rrn := (getFreeRrn s.freeRrn).1,
        children := [(s.node root).rrn, (s.node rChild).rrn], nextLeaf := noRrn, leaf := false }
      [s.unused, rChild, root] synced rfl ⟨drawn, few⟩
  have works : s.resident.ioFails s.resident.writes = false := synced.works _
  rw [cachePager_write, written, growRoot_resident, works, synced.read member, synced.read inside]
  refine ⟨⟨follows.synced, ?_⟩, ?_⟩
  · rintro _ ⟨⟩
    exact new
  · simp only [BTree.resident, Option.map_some, content, plain]
    rfl

theorem finishInsert {result : InsertResult NodeCache NodePtr}
    {plain : InsertResult Resident Rrn} (tree : SyncedTree b) (found : b.root = some root)
    (inserted : InsertFollows b.io result plain)
    (fits : Fits (finishInsert cachePager b root result).1.io) :
    SyncedTree (finishInsert cachePager b root result).1 ∧
      finishInsert residentPager b.resident (b.io.node root).rrn plain =
        ((finishInsert cachePager b root result).1.resident,
          (finishInsert cachePager b root result).2) := by
  obtain ⟨t, insertion, flag⟩ := result
  obtain ⟨here, name⟩ := inserted.follows.kept root (tree.root root found)
  have kept : ∀ other, b.root = some other → other ∈ t.gq := by
    intro other same
    cases found.symm.trans same
    exact here
  have config : BTree.resident { b with io := t } = { b.resident with io := t.resident } := by
    simp only [BTree.resident, found, Option.map_some, name]
  obtain rfl := inserted.same
  cases insertion with
  | status status =>
      refine ⟨⟨inserted.follows.synced, kept⟩, ?_⟩
      simp only [Gaveta.finishInsert, residentInsertion, config]
  | promotion promoKey rChild =>
      cases flag with
      | false =>
          refine ⟨⟨inserted.follows.synced, kept⟩, ?_⟩
          simp only [Gaveta.finishInsert, residentInsertion, config, Bool.false_eq_true, ↓reduceIte]
      | true =>
          have grown := growRoot inserted.follows.synced here (inserted.known promoKey rChild rfl) fits
          rw [name] at grown
          exact grown

theorem insert (tree : SyncedTree b) (fits : Fits (bInsert cachePager b id rrn).1.io) :
    SyncedTree (bInsert cachePager b id rrn).1 ∧
      bInsert residentPager b.resident id rrn =
        ((bInsert cachePager b id rrn).1.resident, (bInsert cachePager b id rrn).2) := by
  cases found : b.root with
  | none =>
      have cached : bInsert cachePager b id rrn =
          Gaveta.createRoot cachePager b { id := id, dataRegisterRrn := rrn } := by
        rw [bInsert, found]
      have plain : bInsert residentPager b.resident id rrn =
          Gaveta.createRoot residentPager b.resident { id := id, dataRegisterRrn := rrn } := by
        rw [bInsert, BTree.resident, found]
        rfl
      rw [cached] at fits ⊢
      rw [plain]
      exact tree.createRoot _ fits
  | some root =>
      have cached : bInsert cachePager b id rrn = Gaveta.finishInsert cachePager b root
          (insertKey cachePager b.config.order b.root depthLimit [] b.io root ⟨id, rrn⟩ false) := by
        rw [bInsert, found]
      have plain : bInsert residentPager b.resident id rrn =
          Gaveta.finishInsert residentPager b.resident (b.io.node root).rrn
            (insertKey residentPager b.config.order b.resident.root depthLimit [] b.io.resident
              (b.io.node root).rrn ⟨id, rrn⟩ false) := by
        rw [bInsert, BTree.resident, found]
        rfl
      rw [cached] at fits ⊢
      rw [plain]
      have grown : ∀ result : InsertResult NodeCache NodePtr,
          Grown result.1 (Gaveta.finishInsert cachePager b root result).1.io := fun result =>
        (cachePager_grown result.1).finishInsert ⟨Grown.refl result.1, fun _ _ _ => trivial⟩ (by simp)
      exact tree.finishInsert found
        (tree.synced.insertKey (tree.root root found) (fits.before (grown _))) fits

end SyncedTree

section Search

variable {s : NodeCache} {p q : NodePtr} {held : List NodePtr} {names : List Rrn} {id : CString}
  {root : Option NodePtr} {top : Option Rrn} {b : CachedTree}

theorem Synced.searchKey {fuel : Nat} (synced : Synced [] s) (member : p ∈ s.gq) :
    ∃ pos found, searchKey cachePager root fuel held s p id = (s, pos, found) ∧
      (∀ q ∈ found, q ∈ s.gq) ∧
      searchKey residentPager top fuel names s.resident (s.node p).rrn id =
        (s.resident, pos, found.map fun q => (s.node q).rrn) := by
  induction fuel generalizing held p names with
  | zero => exact ⟨noPosition, none, rfl, by simp, rfl⟩
  | succ fuel ih =>
      have content := synced.read member
      by_cases found : (searchInBtreeNode (s.node p) id).1 = .foundKey
      · refine ⟨(searchInBtreeNode (s.node p) id).2.toUInt16, some p, ?_, ?_, ?_⟩
        · simp only [Gaveta.searchKey, cachePager_node, found, ↓reduceIte]
        · rintro _ ⟨⟩
          exact member
        · simp only [Gaveta.searchKey, residentPager_node, content, found, ↓reduceIte, Option.map_some]
      by_cases leaf : (s.node p).leaf = true
      · refine ⟨noPosition, some p, ?_, ?_, ?_⟩
        · simp only [Gaveta.searchKey, cachePager_node, found, leaf, ↓reduceIte]
        · rintro _ ⟨⟩
          exact member
        · simp only [Gaveta.searchKey, residentPager_node, content, found, leaf, ↓reduceIte,
            Option.map_some]
      have branch : (s.node p).leaf = false := by simpa using leaf
      cases search : s.searchGq ((s.node p).child (searchInBtreeNode (s.node p) id).2) with
      | none =>
          refine ⟨noPosition, none, ?_, by simp, ?_⟩
          · simp only [Gaveta.searchKey, cachePager_node, found, branch, cachePager_load, synced.load,
              search, Bool.false_eq_true, ↓reduceIte]
          · simp only [Gaveta.searchKey, residentPager_node, content, found, branch,
              Synced.plainLoad, search, Option.map_none, Bool.false_eq_true, ↓reduceIte]
      | some child =>
          have inside := (NodeCache.searchGq_some search).1
          obtain ⟨pos, reached, cached, known, plain⟩ :=
            @ih child (p :: held) ((s.node p).rrn :: names) inside
          refine ⟨pos, reached, ?_, known, ?_⟩
          · simp only [Gaveta.searchKey, cachePager_node, found, branch, cachePager_load, synced.load,
              search, cached, synced.dropUncached inside, Bool.false_eq_true, ↓reduceIte]
          · simp only [Gaveta.searchKey, residentPager_node, content, found, branch,
              Synced.plainLoad, search, Option.map_some, plain, dropUncached_resident,
              Bool.false_eq_true, ↓reduceIte]

theorem SyncedTree.search (tree : SyncedTree b) (id : CString) :
    ∃ found pos, bSearch cachePager b id = (b, found, pos) ∧ (∀ q ∈ found, q ∈ b.io.gq) ∧
      bSearch residentPager b.resident id =
        (b.resident, found.map fun q => (b.io.node q).rrn, pos) := by
  obtain ⟨top, config, s⟩ := b
  cases top with
  | none => exact ⟨none, noPosition, rfl, by simp, rfl⟩
  | some root =>
      obtain ⟨pos, reached, cached, known, plain⟩ :=
        @Synced.searchKey s root [] [] id (some root) (some (s.node root).rrn) depthLimit tree.synced
          (tree.root root rfl)
      cases reached with
      | none =>
          refine ⟨none, noPosition, ?_, by simp, ?_⟩
          · simp only [bSearch, cached]
          · simp only [bSearch, BTree.resident, Option.map_some, plain, Option.map_none]
      | some q =>
          have content := tree.synced.read (known q rfl)
          cases leaf : (s.node q).leaf with
          | true =>
              refine ⟨some q, pos, ?_, known, ?_⟩
              · simp only [bSearch, cached, cachePager_node, leaf, ↓reduceIte]
              · simp only [bSearch, BTree.resident, Option.map_some, plain, residentPager_node,
                  content, leaf, ↓reduceIte]
          | false =>
              refine ⟨none, noPosition, ?_, by simp, ?_⟩
              · simp only [bSearch, cached, cachePager_node, leaf, Bool.false_eq_true, ↓reduceIte]
              · simp only [bSearch, BTree.resident, Option.map_some, plain, residentPager_node,
                  content, leaf, Bool.false_eq_true, ↓reduceIte, Option.map_none]

theorem Synced.rangeLeaf {fuel : Nat} {startId : CString} (synced : Synced [] s)
    (member : p ∈ s.gq) :
    rangeLeaf residentPager startId fuel s.resident (s.node p).rrn =
        (rangeLeaf cachePager startId fuel s p).map
          (fun reached => (reached.1.resident, reached.2.map fun q => (s.node q).rrn)) ∧
      ∀ reached ∈ rangeLeaf cachePager startId fuel s p,
        reached.1 = s ∧ ∀ q ∈ reached.2, q ∈ s.gq := by
  induction fuel generalizing p with
  | zero => exact ⟨rfl, by simp [Gaveta.rangeLeaf]⟩
  | succ fuel ih =>
      have content := synced.read member
      rw [Gaveta.rangeLeaf, Gaveta.rangeLeaf]
      simp only [residentPager_node, content, cachePager_node, cachePager_load, synced.load,
        Synced.plainLoad]
      split_ifs with leaf
      · refine ⟨rfl, ?_⟩
        rintro _ ⟨⟩
        exact ⟨rfl, by rintro _ ⟨⟩; exact member⟩
      · cases search : s.searchGq ((s.node p).child (rangeSlot startId (s.node p).keys 0)) with
        | none =>
            refine ⟨rfl, ?_⟩
            rintro _ ⟨⟩
            exact ⟨rfl, by simp⟩
        | some child => exact ih (NodeCache.searchGq_some search).1

theorem Synced.rangeScan {fuel : Nat} {range : KeyRange} (synced : Synced [] s)
    (member : p ∈ s.gq) :
    rangeScan residentPager range fuel s.resident (s.node p).rrn =
        (rangeScan cachePager range fuel s p).map
          (fun visited => (visited.1.resident, visited.2)) ∧
      ∀ visited ∈ rangeScan cachePager range fuel s p, visited.1 = s := by
  induction fuel generalizing p with
  | zero => exact ⟨rfl, by simp [Gaveta.rangeScan]⟩
  | succ fuel ih =>
      have content := synced.read member
      rw [Gaveta.rangeScan, Gaveta.rangeScan]
      simp only [residentPager_node, content, cachePager_node, cachePager_load, synced.load,
        Synced.plainLoad]
      split_ifs
      · exact ⟨rfl, by rintro _ ⟨⟩; rfl⟩
      · exact ⟨rfl, by rintro _ ⟨⟩; rfl⟩
      · cases search : s.searchGq (s.node p).nextLeaf with
        | none => exact ⟨rfl, by rintro _ ⟨⟩; rfl⟩
        | some next =>
            obtain ⟨plain, kept⟩ := ih (NodeCache.searchGq_some search).1
            dsimp only [Option.map_some]
            rw [plain]
            refine ⟨by simp only [Option.map_map, Function.comp_def], ?_⟩
            intro visited scanned
            obtain ⟨rest, later, rfl⟩ := Option.map_eq_some_iff.mp scanned
            exact kept rest later

theorem SyncedTree.range (tree : SyncedTree b) (range : KeyRange) :
    bRangeSearch residentPager b.resident range =
        (bRangeSearch cachePager b range).map (fun found => (found.1.resident, found.2)) ∧
      ∀ found ∈ bRangeSearch cachePager b range, found.1 = b := by
  obtain ⟨top, config, s⟩ := b
  cases top with
  | none => exact ⟨rfl, by rintro _ ⟨⟩; rfl⟩
  | some root =>
      have here := tree.root root rfl
      obtain ⟨plain, kept⟩ := @Synced.rangeLeaf s root depthLimit range.startId tree.synced here
      simp only [bRangeSearch, BTree.resident, Option.map_some, plain]
      -- the searches leave the storage as it is, so both loops start from the same nodes
      cases descent : rangeLeaf cachePager range.startId depthLimit s root with
      | none => exact ⟨rfl, by simp⟩
      | some reached =>
          obtain ⟨same, inside⟩ := kept reached descent
          obtain ⟨_, found⟩ := reached
          obtain rfl := same
          cases found with
          | none => exact ⟨rfl, by rintro _ ⟨⟩; rfl⟩
          | some leaf =>
              obtain ⟨scan, still⟩ :=
                @Synced.rangeScan _ leaf depthLimit range tree.synced (inside leaf rfl)
              simp only [Option.map_some, scan, Option.map_map, Function.comp_def]
              refine ⟨Option.map_congr fun visited ran => by rw [still visited ran], ?_⟩
              intro found scanned
              obtain ⟨visited, ran, rfl⟩ := Option.map_eq_some_iff.mp scanned
              rw [still visited ran]

end Search

end Gaveta
