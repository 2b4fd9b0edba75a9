import Gaveta.BTree.Remove
import Gaveta.BTree.Transparency

/-! `b_remove` on the cache and on memory that keeps every node. -/

namespace Gaveta

section Parents

variable {s : NodeCache} {p target current root : NodePtr} {dirty held : List NodePtr}
  {names : List Rrn}

structure FoundBoth (s : NodeCache) (cached : NodeCache × Option NodePtr)
    (plain : Resident × Option Rrn) : Prop where
  still : cached.1 = s
  known : ∀ q ∈ cached.2, q ∈ s.gq
  same : plain = (s.resident, cached.2.map fun q => (s.node q).rrn)

theorem FoundBoth.none : FoundBoth s (s, none) (s.resident, none) := ⟨rfl, by simp, rfl⟩

theorem FoundBoth.some (member : p ∈ s.gq) :
    FoundBoth s (s, some p) (s.resident, some (s.node p).rrn) := by
  refine ⟨rfl, ?_, rfl⟩
  rintro _ ⟨⟩
  exact member

theorem Synced.loadBoth (synced : Synced dirty s) (rrn : Rrn) :
    FoundBoth s (cachePager.loadBtreeNode held s rrn)
      (residentPager.loadBtreeNode names s.resident rrn) := by
  rw [cachePager_load, synced.load, Synced.plainLoad]
  exact ⟨rfl, fun q found => (NodeCache.searchGq_some found).1, rfl⟩

theorem Synced.findBelow {find : NodeCache → NodePtr → NodeCache × Option NodePtr}
    {plainFind : Resident → Rrn → Resident × Option Rrn} {root : Option NodePtr} {top : Option Rrn}
    (synced : Synced [] s) (finds : ∀ child ∈ s.gq,
      FoundBoth s (find s child) (plainFind s.resident (s.node child).rrn)) (rrns : List Rrn) :
    FoundBoth s (findBelow (cachePager.loadBtreeNode held) find (Gaveta.dropUncached cachePager root) s
      rrns)
      (findBelow (residentPager.loadBtreeNode names) plainFind
        (Gaveta.dropUncached residentPager top) s.resident rrns) := by
  induction rrns with
  | nil => exact .none
  | cons rrn rest ih =>
      rw [Gaveta.findBelow, Gaveta.findBelow]
      simp only [cachePager_load, synced.load, Synced.plainLoad]
      cases search : s.searchGq rrn with
      | none => exact ih
      | some child =>
          have inside := (NodeCache.searchGq_some search).1
          obtain ⟨same, known, plain⟩ := finds child inside
          simp only [Option.map_some, plain, same, dropUncached_resident, synced.dropUncached inside]
          cases found : (find s child).2 with
          | none => exact ih
          | some parent =>
              rw [found] at known
              exact .some (known parent rfl)

theorem Synced.findParent {fuel : Nat} (synced : Synced [] s) (top : root ∈ s.gq)
    (start : current ∈ s.gq) (member : target ∈ s.gq) :
    FoundBoth s (findParent cachePager root fuel held s current target)
      (findParent residentPager (s.node root).rrn fuel names s.resident (s.node current).rrn
        (s.node target).rrn) := by
  induction fuel generalizing current held names with
  | zero => exact .none
  | succ fuel ih =>
      have same : (s.node target).rrn = (s.node root).rrn ↔ target = root :=
        ⟨synced.same_of_rrn member top, fun equal => by rw [equal]⟩
      simp only [Gaveta.findParent, residentPager_node, synced.read member, synced.read start,
        cachePager_node, same]
      by_cases atRoot : target = root
      · simp only [atRoot, ↓reduceIte]
        exact .none
      by_cases parent : (s.node target).rrn ∈ (s.node current).children
      · simp only [atRoot, parent, ↓reduceIte]
        exact .some start
      by_cases leaf : (s.node current).leaf = true
      · simp only [atRoot, parent, leaf, ↓reduceIte]
        exact .none
      · simp only [atRoot, parent, leaf, ↓reduceIte]
        exact synced.findBelow (fun child inside => ih inside) _

theorem Synced.getSibling (synced : Synced [] s) (top : root ∈ s.gq) (member : p ∈ s.gq)
    (left : Bool) :
    FoundBoth s (getSibling cachePager root s p left)
      (getSibling residentPager (s.node root).rrn s.resident (s.node p).rrn left) := by
  obtain ⟨same, known, plain⟩ :=
    @Synced.findParent s p root root [p] [(s.node p).rrn] depthLimit synced top top member
  rw [Gaveta.getSibling, Gaveta.getSibling]
  simp only [plain, same]
  cases found : (Gaveta.findParent cachePager root depthLimit [p] s root p).2 with
  | none => exact .none
  | some parent =>
      rw [found] at known
      simp only [Option.map_some, residentPager_node, synced.read (known parent rfl),
        synced.read member, cachePager_node]
      by_cases before : left = true ∧ 0 < (s.node parent).children.idxOf (s.node p).rrn
      · simp only [before, and_self, ↓reduceIte]
        exact synced.loadBoth _
      by_cases after : ¬left = true ∧
          (s.node parent).children.idxOf (s.node p).rrn + 1 < (s.node parent).childNum
      · simp only [after]
        exact synced.loadBoth _
      · simp only [before, after, ↓reduceIte]
        exact .none

end Parents

section Rebalance

variable {s : NodeCache} {p root left right donor receiver : NodePtr}

structure ReturnsBoth (s : NodeCache) (cached : NodeCache × BtreeStatus)
    (plain : Resident × BtreeStatus) : Prop where
  follows : Follows s cached.1
  same : plain = (cached.1.resident, cached.2)

theorem ReturnsBoth.still (synced : Synced [] s) (status : BtreeStatus) :
    ReturnsBoth s (s, status) (s.resident, status) := ⟨.refl synced, rfl⟩

theorem Synced.setBoth {dirty : List NodePtr} {content : BtreeNode} (synced : Synced dirty s)
    (member : p ∈ s.gq) (name : content.rrn = (s.node p).rrn) :
    ∃ t, s.setNode p content = t ∧ Synced (p :: dirty) t ∧ t.gq = s.gq ∧
      (∀ q, (t.node q).rrn = (s.node q).rrn) ∧
      t.resident = s.resident.store (s.node p).rrn content :=
  ⟨_, rfl, synced.setNode name, rfl, Synced.node_set content name,
    synced.setNode_resident member name⟩

theorem Synced.redistribute (synced : Synced [] s) (gives : donor ∈ s.gq) (takes : receiver ∈ s.gq)
    (fromLeft : Bool) :
    ReturnsBoth s (redistribute cachePager root s donor receiver fromLeft)
      (redistribute residentPager (s.node root).rrn s.resident (s.node donor).rrn
        (s.node receiver).rrn fromLeft) := by
  obtain ⟨grown, grows⟩ : ∃ grown, (if fromLeft = true then
      (s.node donor).keys.getLast?.toList ++ (s.node receiver).keys
      else (s.node receiver).keys ++ (s.node donor).keys.head?.toList) = grown := ⟨_, rfl⟩
  obtain ⟨kept, keeps⟩ : ∃ kept, (if fromLeft = true then (s.node donor).keys.dropLast
      else (s.node donor).keys.tail) = kept := ⟨_, rfl⟩
  obtain ⟨t, set, taken, queue, names, plain⟩ :=
    @Synced.setBoth s receiver [] { s.node receiver with keys := grown } synced takes rfl
  have gave : donor ∈ t.gq := by rw [queue]; exact gives
  obtain ⟨u, setAgain, given, again, namesAgain, plainAgain⟩ :=
    @Synced.setBoth t donor [receiver] { t.node donor with keys := kept } taken gave rfl
  obtain ⟨first, half⟩ := @Synced.write u donor [receiver] [donor, receiver, root] given
    (by rw [again]; exact gave)
  obtain ⟨second, clean⟩ := @Synced.write (u.wrote donor) receiver [] [donor, receiver, root] half
    (by rw [NodeCache.wrote_gq, again, queue]; exact takes)
  have works : ∀ n, u.resident.ioFails n = false := given.works
  have cached : Gaveta.redistribute cachePager root s donor receiver fromLeft =
      ((u.wrote donor).wrote receiver, .success) := by
    simp only [Gaveta.redistribute, cachePager_node, cachePager_setNode, grows, keeps, set, setAgain,
      cachePager_write, first, second, BtreeStatus.value, Int.lt_irrefl, ↓reduceIte]
  have resident : Gaveta.redistribute residentPager (s.node root).rrn s.resident (s.node donor).rrn
      (s.node receiver).rrn fromLeft = (u.resident.wrote.wrote, .success) := by
    have donorNode := taken.read gave
    rw [names] at donorNode plainAgain
    simp only [Gaveta.redistribute, residentPager_node, synced.read gives, synced.read takes, grows,
      keeps, residentPager_setNode, ← plain, donorNode, ← plainAgain, residentPager_write, works,
      Resident.wrote_ioFails, Bool.false_eq_true, BtreeStatus.value, Int.lt_irrefl, ↓reduceIte]
  rw [cached, resident]
  refine ⟨⟨clean, fun q inside => ⟨?_, ?_⟩⟩, rfl⟩
  · rw [NodeCache.wrote_gq, NodeCache.wrote_gq, again, queue]
    exact inside
  · rw [NodeCache.node_wrote, NodeCache.node_wrote, namesAgain, names]

theorem Synced.merge (synced : Synced [] s) (here : left ∈ s.gq) (there : right ∈ s.gq) :
    ReturnsBoth s (merge cachePager root s left right)
      (merge residentPager (s.node root).rrn s.resident (s.node left).rrn (s.node right).rrn) := by
  obtain ⟨t, written, follows, _, _, _, _, _, plain⟩ :=
    @Synced.rewrite s left [left, right, root]
      { s.node left with
        keys := (s.node left).keys ++ (s.node right).keys
        nextLeaf := (s.node right).nextLeaf } synced here rfl
  have works : ∀ n, s.resident.ioFails n = false := synced.works
  have other := follows.kept right there
  simp only [Gaveta.merge, residentPager_node, synced.read here, synced.read there, cachePager_node,
    residentPager_setNode, cachePager_setNode, cachePager_write, written, residentPager_write,
    Resident.store_ioFails, works, Bool.false_eq_true, ↓reduceIte, BtreeStatus.value, Int.lt_irrefl,
    ← plain]
  refine ⟨⟨follows.synced.insertFreeRrn _, follows.kept⟩, ?_⟩
  rw [residentPager_insertFreeRrn, ← other.2, follows.synced.read other.1]
  rfl

theorem Synced.filter {found : Option NodePtr} (synced : Synced [] s)
    (known : ∀ q ∈ found, q ∈ s.gq) (least : Nat) :
    ((found.map fun q => (s.node q).rrn).filter fun rrn =>
        least < (s.resident.read rrn).keysNum) =
      (found.filter fun q => least < (s.node q).keysNum).map fun q => (s.node q).rrn := by
  cases found with
  | none => rfl
  | some q =>
      simp only [Option.map_some, Option.filter_some, synced.read (known q rfl)]
      split_ifs <;> rfl

theorem Synced.rebalance {order : Nat} (synced : Synced [] s) (top : root ∈ s.gq)
    (member : p ∈ s.gq) :
    ReturnsBoth s (rebalance cachePager order root s p)
      (rebalance residentPager order (s.node root).rrn s.resident (s.node p).rrn) := by
  obtain ⟨leftStill, leftKnown, leftSame⟩ := synced.getSibling top member true
  obtain ⟨rightStill, rightKnown, rightSame⟩ := synced.getSibling top member false
  simp only [Gaveta.rebalance, leftSame, leftStill, rightSame, rightStill, residentPager_node,
    cachePager_node, synced.filter leftKnown, synced.filter rightKnown]
  cases richLeft : Option.filter
      (fun q => decide ((order - 1) / 2 < (s.node q).keysNum))
      (Gaveta.getSibling cachePager root s p true).2 with
  | some left =>
      exact synced.redistribute (leftKnown left (Option.eq_some_of_filter_eq_some richLeft)) member
        true
  | none =>
      cases richRight : Option.filter
          (fun q => decide ((order - 1) / 2 < (s.node q).keysNum))
          (Gaveta.getSibling cachePager root s p false).2 with
      | some right =>
          have known := rightKnown right (Option.eq_some_of_filter_eq_some richRight)
          exact synced.redistribute known member false
      | none =>
          cases onLeft : (Gaveta.getSibling cachePager root s p true).2 with
          | some left => exact synced.merge (leftKnown left onLeft) member
          | none =>
              cases onRight : (Gaveta.getSibling cachePager root s p false).2 with
              | some right => exact synced.merge member (rightKnown right onRight)
              | none => exact .still synced _

end Rebalance

section Remove

variable {b : CachedTree} {id : CString}

theorem Synced.release {s : NodeCache} {dirty : List NodePtr} (synced : Synced dirty s) (rrn : Rrn) :
    ∃ t, (if rrn ≠ noRrn then
          if (cachePager.writeTombstone s rrn).2 then
            cachePager.insertFreeRrn (cachePager.writeTombstone s rrn).1 rrn
          else (cachePager.writeTombstone s rrn).1
        else s) = t ∧ Synced dirty t ∧ t.gq = s.gq ∧ t.node = s.node ∧
      t.resident = if rrn ≠ noRrn then
          if (residentPager.writeTombstone s.resident rrn).2 then
            residentPager.insertFreeRrn (residentPager.writeTombstone s.resident rrn).1 rrn
          else (residentPager.writeTombstone s.resident rrn).1
        else s.resident := by
  by_cases mark : rrn ≠ noRrn
  · rw [if_pos mark, if_pos mark]
    exact ⟨_, rfl, (synced.writeTombstone rrn).insertFreeRrn rrn, rfl, rfl, rfl⟩
  · rw [if_neg mark, if_neg mark]
    exact ⟨_, rfl, synced, rfl, rfl, rfl⟩

/-- The end of `b_remove`, once the key is found in the slot `pos` of the leaf `p`. -/
def removeSlot {σ ρ : Type} [DecidableEq ρ] (pager : Pager σ ρ) (b : BTree σ ρ) (root : ρ) (s : σ)
    (p : ρ) (pos : Nat) (key : Key) : BTree σ ρ × Option BtreeStatus :=
  let s := pager.setNode s p
    { pager.node s p with keys := (pager.node s p).keys.eraseIdx pos }
  let s :=
    if key.dataRegisterRrn ≠ noRrn then
      let marked := pager.writeTombstone s key.dataRegisterRrn
      if marked.2 then pager.insertFreeRrn marked.1 key.dataRegisterRrn
      else marked.1
    else s
  if p = root ∧ (pager.node s p).keysNum = 0 then
    ({ b with root := none, io := pager.clearBtreeNode s root }, some .success)
  else
    let written := pager.writeIndexRecord [p, root] s p
    if written.2.value < 0 then ({ b with io := written.1 }, some written.2)
    else if p ≠ root ∧ (pager.node written.1 p).keysNum < (b.config.order - 1) / 2 then
      let balanced := rebalance pager b.config.order root written.1 p
      ({ b with io := balanced.1 }, some balanced.2)
    else ({ b with io := written.1 }, some .success)

theorem bRemove_slot {σ ρ : Type} [DecidableEq ρ] {pager : Pager σ ρ} {b : BTree σ ρ} {root p : ρ}
    {pos : UInt16} {key : Key} (rooted : b.root = some root)
    (searched : bSearch pager b id = (b, some p, pos))
    (stored : (pager.node b.io p).keys[pos.toNat]? = some key) (same : strcmp key.id id = 0)
    (leaf : (pager.node b.io p).leaf = true) :
    bRemove pager b id = removeSlot pager b root b.io p pos.toNat key := by
  have notBranch : ¬(pager.node b.io p).leaf = false := by simp [leaf]
  rw [bRemove, removeSlot, rooted]
  dsimp only
  rw [searched]
  dsimp only
  rw [stored]
  dsimp only
  rw [if_neg (not_not.mpr same), if_neg notBranch]

theorem Synced.removeSlot {s : NodeCache} {root p : NodePtr} {config : BtreeConfig} {pos : Nat}
    {key : Key} (synced : Synced [] s) (here : root ∈ s.gq) (member : p ∈ s.gq)
    (keeps : (removeSlot cachePager ⟨some root, config, s⟩ root s p pos key).1.root = some root) :
    SyncedTree (removeSlot cachePager ⟨some root, config, s⟩ root s p pos key).1 ∧
      Gaveta.removeSlot residentPager (BTree.resident ⟨some root, config, s⟩) (s.node root).rrn
          s.resident (s.node p).rrn pos key =
        ((Gaveta.removeSlot cachePager ⟨some root, config, s⟩ root s p pos key).1.resident,
          (Gaveta.removeSlot cachePager ⟨some root, config, s⟩ root s p pos key).2) := by
  obtain ⟨t, set, erased, queue, names, plain⟩ :=
    @Synced.setBoth s p [] { s.node p with keys := (s.node p).keys.eraseIdx pos } synced member rfl
  obtain ⟨u, released, marked, again, nodes, plainAgain⟩ := erased.release key.dataRegisterRrn
  have inside : p ∈ u.gq := by rw [again, queue]; exact member
  have top : root ∈ u.gq := by rw [again, queue]; exact here
  have name : ∀ q, (u.node q).rrn = (s.node q).rrn := fun q => by rw [nodes, names]
  have read := marked.read inside
  rw [name] at read
  obtain ⟨written, clean⟩ := @Synced.write u p [] [p, root] marked inside
  have works : ∀ n, u.resident.ioFails n = false := marked.works
  have same : (s.node p).rrn = (s.node root).rrn ↔ p = root :=
    ⟨synced.same_of_rrn member here, fun equal => by rw [equal]⟩
  have content := synced.read member
  have cached : Gaveta.removeSlot cachePager ⟨some root, config, s⟩ root s p pos key =
      if p = root ∧ (u.node p).keysNum = 0 then
        (⟨none, config, u.clearBtreeNode root⟩, some .success)
      else if p ≠ root ∧ (u.node p).keysNum < (config.order - 1) / 2 then
        (⟨some root, config, (Gaveta.rebalance cachePager config.order root (u.wrote p) p).1⟩,
          some (Gaveta.rebalance cachePager config.order root (u.wrote p) p).2)
      else (⟨some root, config, u.wrote p⟩, some .success) := by
    simp only [Gaveta.removeSlot, cachePager_node, cachePager_setNode, set]
    rw [released]
    simp only [cachePager_write, written, BtreeStatus.value, Int.lt_irrefl, ↓reduceIte,
      NodeCache.node_wrote]
    rfl
  have resident : Gaveta.removeSlot residentPager (BTree.resident ⟨some root, config, s⟩)
      (s.node root).rrn s.resident (s.node p).rrn pos key =
      if p = root ∧ (u.node p).keysNum = 0 then
        (⟨none, config, u.resident.drop (s.node root).rrn⟩, some .success)
      else if p ≠ root ∧ (u.node p).keysNum < (config.order - 1) / 2 then
        (⟨some (s.node root).rrn, config,
          (Gaveta.rebalance residentPager config.order (s.node root).rrn u.resident.wrote
            (s.node p).rrn).1⟩,
          some (Gaveta.rebalance residentPager config.order (s.node root).rrn u.resident.wrote
            (s.node p).rrn).2)
      else (⟨some (s.node root).rrn, config, u.resident.wrote⟩, some .success) := by
    simp only [Gaveta.removeSlot, residentPager_node, residentPager_setNode, content, ← plain]
    rw [← plainAgain]
    simp only [residentPager_write, works, read, ne_eq, same, BtreeStatus.value, Int.lt_irrefl,
      ↓reduceIte, Bool.false_eq_true, read_wrote, residentPager_clear]
    rfl
  rw [cached] at keeps ⊢
  rw [resident]
  by_cases emptied : p = root ∧ (u.node p).keysNum = 0
  · rw [if_pos emptied] at keeps
    cases keeps
  have moved : ∀ {t : NodeCache}, Follows (u.wrote p) t → SyncedTree ⟨some root, config, t⟩ ∧
      (t.node root).rrn = (s.node root).rrn := by
    intro t follows
    obtain ⟨still, same⟩ := follows.kept root top
    refine ⟨⟨follows.synced, ?_⟩, same.trans (name root)⟩
    rintro _ ⟨⟩
    exact still
  rw [if_neg emptied, if_neg emptied]
  by_cases few : p ≠ root ∧ (u.node p).keysNum < (config.order - 1) / 2
  · rw [if_pos few, if_pos few]
    obtain ⟨follows, balanced⟩ :=
      @Synced.rebalance (u.wrote p) p root config.order clean top inside
    obtain ⟨kept, label⟩ := moved follows
    have start : ((u.wrote p).node root).rrn = (s.node root).rrn := name root
    have leaf : ((u.wrote p).node p).rrn = (s.node p).rrn := name p
    rw [start, leaf, Synced.wrote_resident] at balanced
    refine ⟨kept, ?_⟩
    rw [balanced]
    simp only [BTree.resident, Option.map_some, label]
  · rw [if_neg few, if_neg few]
    obtain ⟨kept, label⟩ := moved (Follows.refl clean)
    refine ⟨kept, ?_⟩
    simp only [BTree.resident, Option.map_some, label]
    rfl

theorem SyncedTree.remove (tree : SyncedTree b)
    (keeps : (bRemove cachePager b id).1.root = b.root) :
    SyncedTree (bRemove cachePager b id).1 ∧
      bRemove residentPager b.resident id =
        ((bRemove cachePager b id).1.resident, (bRemove cachePager b id).2) := by
  obtain ⟨top, config, s⟩ := b
  cases top with
  | none => exact ⟨tree, rfl⟩
  | some root =>
      have synced : Synced [] s := tree.synced
      have here : root ∈ s.gq := tree.root root rfl
      have start : (BTree.resident ⟨some root, config, s⟩).root = some (s.node root).rrn := rfl
      have storage : (BTree.resident ⟨some root, config, s⟩).io = s.resident := rfl
      have unchanged : ∀ status,
          bRemove cachePager ⟨some root, config, s⟩ id = (⟨some root, config, s⟩, status) →
          bRemove residentPager (BTree.resident ⟨some root, config, s⟩) id =
            (BTree.resident ⟨some root, config, s⟩, status) →
          SyncedTree (bRemove cachePager ⟨some root, config, s⟩ id).1 ∧
            bRemove residentPager (BTree.resident ⟨some root, config, s⟩) id =
              ((bRemove cachePager ⟨some root, config, s⟩ id).1.resident,
                (bRemove cachePager ⟨some root, config, s⟩ id).2) := by
        intro status cached plain
        rw [cached, plain]
        exact ⟨tree, rfl⟩
      obtain ⟨found, pos, cached, known, plain⟩ := tree.search id
      cases found with
      | none =>
          apply unchanged (some .notFoundKey)
          · simp only [bRemove, cached]
          · simp only [bRemove, start, plain, Option.map_none]
      | some p =>
          have member := known p rfl
          have content := synced.read member
          cases stored : (s.node p).keys[pos.toNat]? with
          | none =>
              apply unchanged none
              · simp only [bRemove, cached, cachePager_node, stored]
              · simp only [bRemove, start, plain, Option.map_some, storage, residentPager_node,
                  content, stored]
          | some key =>
              by_cases other : strcmp key.id id ≠ 0
              · apply unchanged (some .notFoundKey)
                · simp only [bRemove, cached, cachePager_node, stored, other, ↓reduceIte, ne_eq,
                    not_false_eq_true]
                · simp only [bRemove, start, plain, Option.map_some, storage, residentPager_node,
                    content, stored, other, ↓reduceIte, ne_eq, not_false_eq_true]
              by_cases branch : (s.node p).leaf = false
              · apply unchanged (some .success)
                · simp only [bRemove, cached, cachePager_node, stored, other, branch, ↓reduceIte]
                · simp only [bRemove, start, plain, Option.map_some, storage, residentPager_node,
                    content, stored, other, branch, ↓reduceIte]
              have same : strcmp key.id id = 0 := not_not.mp other
              have leaf : (s.node p).leaf = true := by simpa using branch
              have cachedWhole : bRemove cachePager ⟨some root, config, s⟩ id =
                  Gaveta.removeSlot cachePager ⟨some root, config, s⟩ root s p pos.toNat key :=
                bRemove_slot rfl cached stored same leaf
              have plainWhole : bRemove residentPager (BTree.resident ⟨some root, config, s⟩) id =
                  Gaveta.removeSlot residentPager (BTree.resident ⟨some root, config, s⟩)
                    (s.node root).rrn s.resident (s.node p).rrn pos.toNat key :=
                bRemove_slot start plain (by rw [storage, residentPager_node, content, stored]) same
                  (by rw [storage, residentPager_node, content, leaf])
              rw [cachedWhole] at keeps ⊢
              rw [plainWhole]
              exact synced.removeSlot here member keeps

end Remove

end Gaveta
