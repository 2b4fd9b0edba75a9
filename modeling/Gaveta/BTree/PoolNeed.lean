import Gaveta.BTree.PoolUse
import Gaveta.BTree.Retains

/-! How many free pages a run of a tree needs. -/

namespace Gaveta

/-- The pages of a tree that has kept its nodes: three for a node with its entry in the cache's queue,
two for a free record number and two for every call of `load_btree_node` that has returned a node. -/
def pagesNeeded (s : NodeCache) (loads : Nat) : Nat :=
  3 * s.created.length + 2 * s.freeRrn.length + 2 * loads

structure ServedFrom (start : Heap) (entries : Nat) (dirty : List NodePtr)
    (s : (NodeCache × Option TreeBlocks) × Nat) : Prop where
  pool : InPool start s
  synced : Synced dirty s.1.1
  queue : s.1.1.gq.length + entries = s.1.1.created.length
  nodes : ∀ t ∈ s.1.2, t.nodes.length = s.1.1.created.length
  served : pagesNeeded s.1.1 s.2 + 2 ≤ start.memory.freePageNum → ∃ t, s.1.2 = some t

namespace TreeBlocks

variable {s : NodeCache} {t : TreeBlocks} {p : NodePtr}

theorem writeIndexRecord_cached (works : ∀ n, s.ioFails n = false) (notNull : p ≠ nullPtr)
    (member : p ∈ s.gq) : t.writeIndexRecord s p = some t := by
  obtain ⟨found, search⟩ := Option.isSome_iff_exists.mp (NodeCache.searchGq_isSome member)
  simp only [TreeBlocks.writeIndexRecord, notNull, works, NodeCache.searchGq_wrote, search,
    Bool.false_eq_true, ↓reduceIte]

theorem writeIndexRecord_new (works : ∀ n, s.ioFails n = false) (notNull : p ≠ nullPtr)
    (missing : s.searchGq (s.node p).rrn = none) (room : s.cacheSize + 1 < cacheCapacity) :
    t.writeIndexRecord s p = t.pushGq := by
  have space : ¬cacheCapacity ≤ (s.wrote p).cacheSize + 1 := not_le.mpr room
  simp only [TreeBlocks.writeIndexRecord, notNull, works, NodeCache.searchGq_wrote, missing,
    Bool.false_eq_true, ↓reduceIte, TreeBlocks.cacheNode, space, Option.bind_eq_bind]
  exact Option.bind_fun_some _

theorem getFreeRrn_some {rrn : Rrn} (drawn : rrn ≠ noRrn) :
    t.getFreeRrn p rrn = (t.allocBtreeNode p).map TreeBlocks.removeLl := by
  rw [TreeBlocks.getFreeRrn, Option.bind_eq_bind, Option.map_eq_bind]
  exact Option.bind_congr fun made _ => if_neg drawn

theorem nodes_allocBtreeNode {next : TreeBlocks} (allocated : t.allocBtreeNode p = some next) :
    ∃ block, next.nodes = (p, block) :: t.nodes := by
  simp only [TreeBlocks.allocBtreeNode, Option.bind_eq_bind, Option.bind_eq_some_iff, Prod.exists,
    Option.some.injEq] at allocated
  obtain ⟨heap, block, _, rfl⟩ := allocated
  exact ⟨block, rfl⟩

theorem nodes_pushGq {next : TreeBlocks} (pushed : t.pushGq = some next) : next.nodes = t.nodes := by
  simp only [TreeBlocks.pushGq, Option.bind_eq_bind, Option.bind_eq_some_iff, Prod.exists,
    Option.some.injEq] at pushed
  obtain ⟨heap, node, block, _, rfl⟩ := pushed
  rfl

theorem nodes_insertLl {next : TreeBlocks} (inserted : t.insertLl = some next) :
    next.nodes = t.nodes := by
  simp only [TreeBlocks.insertLl, Option.bind_eq_bind, Option.bind_eq_some_iff, Prod.exists,
    Option.some.injEq] at inserted
  obtain ⟨heap, node, block, _, rfl⟩ := inserted
  rfl

theorem nodes_removeLl (t : TreeBlocks) : t.removeLl.nodes = t.nodes := by
  rw [TreeBlocks.removeLl]
  split <;> rfl

theorem loadBtreeNode_missing {rrn : Rrn} (search : s.searchGq rrn = none) :
    t.loadBtreeNode s rrn = (t.heap.gAllocPair sizeofBtreeNode queueNodeSize).map fun made =>
      { t with heap := (made.1.gDealloc made.2.1).gDealloc made.2.2 } := by
  rw [TreeBlocks.loadBtreeNode, search]
  cases t.heap.gAllocPair sizeofBtreeNode queueNodeSize <;> rfl

end TreeBlocks

namespace BlocksOf

variable {start : Heap} {s : NodeCache} {loads : Nat} {t : TreeBlocks}

theorem allocBtreeNode_some (blocks : BlocksOf start s loads t) (p : NodePtr)
    (room : 1 ≤ t.heap.memory.freePageNum) : ∃ next, t.allocBtreeNode p = some next := by
  obtain ⟨heap, block, allocated⟩ :=
    blocks.took.gAlloc_some sizeofBtreeNode rfl (by decide) room
  rw [TreeBlocks.allocBtreeNode, allocated]
  exact ⟨_, rfl⟩

theorem pushGq_some (blocks : BlocksOf start s loads t) (room : 2 ≤ t.heap.memory.freePageNum) :
    ∃ next, t.pushGq = some next := by
  obtain ⟨heap, node, block, allocated⟩ :=
    blocks.took.gAllocPair_some queueNodeSize sizeofBtreeNode rfl rfl (by decide) (by decide) room
  rw [TreeBlocks.pushGq, allocated]
  exact ⟨_, rfl⟩

theorem insertLl_some (blocks : BlocksOf start s loads t) (room : 2 ≤ t.heap.memory.freePageNum) :
    ∃ next, t.insertLl = some next := by
  obtain ⟨heap, node, block, allocated⟩ :=
    blocks.took.gAllocPair_some listNodeSize 2 rfl rfl (by decide) (by decide) room
  rw [TreeBlocks.insertLl, allocated]
  exact ⟨_, rfl⟩

theorem nodes_loadBtreeNode {rrn : Rrn} {next : TreeBlocks} (blocks : BlocksOf start s loads t)
    (notNull : ∀ found ∈ s.searchGq rrn, found ≠ nullPtr)
    (loaded : t.loadBtreeNode s rrn = some next) : next.nodes = t.nodes := by
  cases search : s.searchGq rrn with
  | none =>
      rw [TreeBlocks.loadBtreeNode_missing search] at loaded
      obtain ⟨made, _, rfl⟩ := Option.map_eq_some_iff.mp loaded
      rfl
  | some p =>
      rw [TreeBlocks.loadBtreeNode_found search (notNull p search)] at loaded
      exact (blocks.lose loaded).nodes

theorem loadBtreeNode_some {rrn : Rrn} (blocks : BlocksOf start s loads t)
    (notNull : ∀ found ∈ s.searchGq rrn, found ≠ nullPtr) (room : 2 ≤ t.heap.memory.freePageNum) :
    ∃ next, t.loadBtreeNode s rrn = some next := by
  cases search : s.searchGq rrn with
  | none =>
      obtain ⟨heap, bn, node, allocated⟩ := blocks.took.gAllocPair_some sizeofBtreeNode queueNodeSize
        rfl rfl (by decide) (by decide) room
      rw [TreeBlocks.loadBtreeNode_missing search, allocated]
      exact ⟨_, rfl⟩
  | some p =>
      rw [TreeBlocks.loadBtreeNode_found search (notNull p search)]
      exact Option.ne_none_iff_exists'.mp (mt blocks.lose_eq_none_iff.mp (not_lt.mpr room))

end BlocksOf

namespace ServedFrom

variable {start : Heap} {entries : Nat} {dirty : List NodePtr}
  {s : (NodeCache × Option TreeBlocks) × Nat} {t : TreeBlocks} {p : NodePtr}

theorem pages (held : ServedFrom start entries dirty s) (accounted : Accounted start 0)
    (here : s.1.2 = some t) :
    t.heap.memory.freePageNum + pagesNeeded s.1.1 s.2 =
      start.memory.freePageNum + 2 * entries := by
  have left := (held.pool.blocks t here).pages accounted
  have queue := held.queue
  have nodes := held.nodes t here
  rw [pagesNeeded]
  omega

theorem setNode (held : ServedFrom start entries dirty s) (content : BtreeNode)
    (name : content.rrn = (s.1.1.node p).rrn) :
    ServedFrom start entries (p :: dirty) ((counted poolPager).setNode s p content) :=
  ⟨(poolPager_keeps start).setNode held.pool name fun _ _ => trivial, held.synced.setNode name,
    held.queue, held.nodes, held.served⟩

theorem write (held : ServedFrom start entries (p :: dirty) s) (frame : List NodePtr)
    (member : p ∈ s.1.1.gq) :
    ∃ t, (counted poolPager).writeIndexRecord frame s p = (t, .success) ∧
      ServedFrom start entries dirty t ∧ t.1.1 = s.1.1.wrote p := by
  obtain ⟨⟨cache, blocks⟩, count⟩ := s
  obtain ⟨written, clean⟩ := @Synced.write cache p dirty frame held.synced member
  have notNull := (held.synced.allocated p member).1
  have same : (blocks.bind fun t => t.writeIndexRecord cache p) = blocks := by
    cases blocks with
    | none => rfl
    | some t => exact TreeBlocks.writeIndexRecord_cached held.synced.works notNull member
  have kept := @Pager.Keeps.writeIndexRecord _ _ _ _ _ _ (poolPager_keeps start) _ frame p held.pool
    (by simp)
  have whole : (counted poolPager).writeIndexRecord frame ((cache, blocks), count) p =
      (((cache.wrote p, blocks), count), .success) := by
    simp only [counted, poolPager, cachePager_write, written, same]
  rw [whole] at kept ⊢
  exact ⟨_, rfl, ⟨kept, clean, held.queue, held.nodes, held.served⟩, rfl⟩

theorem draw (held : ServedFrom start 0 dirty s) (accounted : Accounted start 0)
    (drawn : ((counted poolPager).getFreeRrn s).2 ≠ noRrn) :
    ServedFrom start 1 dirty ((counted poolPager).getFreeRrn s).1 ∧
      ∀ t ∈ ((counted poolPager).getFreeRrn s).1.1.2, ∃ block older,
        t.nodes = (s.1.1.unused, block) :: older := by
  obtain ⟨⟨cache, blocks⟩, count⟩ := s
  have created : (cachePager.getFreeRrn cache).1.created.length = cache.created.length + 1 := by
    simp [cachePager]
  have rest : (cachePager.getFreeRrn cache).1.freeRrn = cache.freeRrn.tail := by
    change (getFreeRrn cache.freeRrn).2 = cache.freeRrn.tail
    cases cache.freeRrn <;> rfl
  have whole : (counted poolPager).getFreeRrn ((cache, blocks), count) =
      ((((cachePager.getFreeRrn cache).1,
        blocks.bind fun t => (t.allocBtreeNode cache.unused).map TreeBlocks.removeLl), count),
        (cachePager.getFreeRrn cache).2) := by
    have taken : ∀ t : TreeBlocks, t.getFreeRrn cache.unused (cachePager.getFreeRrn cache).2 =
        (t.allocBtreeNode cache.unused).map TreeBlocks.removeLl := fun t =>
      TreeBlocks.getFreeRrn_some drawn
    simp only [counted, poolPager, taken]
  have kept := (poolPager_keeps start).getFreeRrn held.pool
  have nodes : ∀ next ∈ blocks.bind fun t => (t.allocBtreeNode cache.unused).map TreeBlocks.removeLl,
      ∃ t block, blocks = some t ∧ next.nodes = (cache.unused, block) :: t.nodes := by
    intro next here
    obtain ⟨t, before, taken⟩ := Option.bind_eq_some_iff.mp here
    obtain ⟨made, allocated, rfl⟩ := Option.map_eq_some_iff.mp taken
    obtain ⟨block, more⟩ := TreeBlocks.nodes_allocBtreeNode allocated
    exact ⟨t, block, before, (TreeBlocks.nodes_removeLl made).trans more⟩
  rw [whole] at kept ⊢
  refine ⟨⟨kept, held.synced.draw, ?_, ?_, ?_⟩, ?_⟩
  · exact (congrArg (· + 1) held.queue).trans created.symm
  · intro next here
    obtain ⟨t, block, before, more⟩ := nodes next here
    rw [more, List.length_cons, held.nodes t before]
    exact created.symm
  · intro enough
    have less : pagesNeeded cache count + 1 ≤ pagesNeeded (cachePager.getFreeRrn cache).1 count := by
      rw [pagesNeeded, pagesNeeded, created, rest, List.length_tail]
      omega
    dsimp only at enough
    obtain ⟨t, before⟩ := held.served (by dsimp only; omega)
    have left := held.pages accounted before
    dsimp only at left
    obtain ⟨next, allocated⟩ := (held.pool.blocks t before).allocBtreeNode_some cache.unused (by omega)
    exact ⟨next.removeLl, Option.bind_eq_some_iff.mpr ⟨t, before, by rw [allocated]; rfl⟩⟩
  · intro next here
    obtain ⟨t, block, _, more⟩ := nodes next here
    exact ⟨block, t.nodes, more⟩

theorem alloc (held : ServedFrom start entries dirty s) (content : BtreeNode)
    (taken : ∀ t ∈ s.1.2, ∃ block older, t.nodes = (s.1.1.unused, block) :: older) :
    ServedFrom start entries dirty ((counted poolPager).allocBtreeNode s content).1 := by
  obtain ⟨⟨cache, blocks⟩, count⟩ := s
  have same : (blocks.bind fun t => t.numberedNode cache.unused) = blocks := by
    cases blocks with
    | none => rfl
    | some t =>
        obtain ⟨block, older, nodes⟩ := taken t rfl
        exact if_pos (by rw [nodes, List.find?_cons_of_pos (by simp)]; rfl)
  have kept := @Pager.Keeps.allocBtreeNode _ _ _ _ _ _ (poolPager_keeps start) _ content held.pool
    fun _ _ => trivial
  have whole : (counted poolPager).allocBtreeNode ((cache, blocks), count) content =
      (((cache.allocBtreeNode content, blocks), count), cache.unused) := by
    simp only [counted, poolPager, cachePager_alloc, same]
  rw [whole] at kept ⊢
  exact ⟨kept, held.synced.alloc content, held.queue, held.nodes, held.served⟩

theorem create (held : ServedFrom start 1 [] s) (accounted : Accounted start 0)
    (frame : List NodePtr) (notNull : p ≠ nullPtr)
    (old : p < s.1.1.unused) (named : (s.1.1.node p).rrn ∈ s.1.1.created)
    (absent : ∀ q ∈ s.1.1.gq, (s.1.1.node q).rrn ≠ (s.1.1.node p).rrn)
    (room : s.1.1.created.length < cacheCapacity) :
    ∃ t, (counted poolPager).writeIndexRecord frame s p = (t, .success) ∧ ServedFrom start 0 [] t ∧
      t.1.1.gq = s.1.1.gq ++ [p] := by
  obtain ⟨⟨cache, blocks⟩, count⟩ := s
  obtain ⟨after, written, clean, queue, _, created, plain⟩ :=
    @Synced.create cache p frame held.synced notNull old named absent room
  have free : after.freeRrn = cache.freeRrn := congrArg Resident.freeRrn plain
  have missing : cache.searchGq (cache.node p).rrn = none := NodeCache.searchGq_eq_none_iff.mpr absent
  have space : cache.cacheSize + 1 < cacheCapacity := by
    have fewer := held.synced.length_lt named absent
    rw [held.synced.size]
    omega
  have pushes : (blocks.bind fun t => t.writeIndexRecord cache p) = blocks.bind TreeBlocks.pushGq :=
    Option.bind_congr fun t _ =>
      TreeBlocks.writeIndexRecord_new held.synced.works notNull missing space
  have kept := @Pager.Keeps.writeIndexRecord _ _ _ _ _ _ (poolPager_keeps start) _ frame p held.pool
    (by simp)
  have whole : (counted poolPager).writeIndexRecord frame ((cache, blocks), count) p =
      (((after, blocks.bind TreeBlocks.pushGq), count), .success) := by
    simp only [counted, poolPager, cachePager_write, written, pushes]
  rw [whole] at kept ⊢
  refine ⟨_, rfl, ⟨kept, clean, ?_, ?_, ?_⟩, queue⟩
  · have entered := held.queue
    dsimp only at entered ⊢
    rw [queue, created, List.length_append]
    exact entered
  · intro next here
    obtain ⟨t, before, pushed⟩ := Option.bind_eq_some_iff.mp here
    dsimp only
    rw [TreeBlocks.nodes_pushGq pushed, created]
    exact held.nodes t before
  · intro enough
    rw [pagesNeeded, created, free, ← pagesNeeded] at enough
    obtain ⟨t, before⟩ := held.served enough
    have left := held.pages accounted before
    dsimp only at enough left
    obtain ⟨next, pushed⟩ := (held.pool.blocks t before).pushGq_some (by omega)
    exact ⟨next, Option.bind_eq_some_iff.mpr ⟨t, before, pushed⟩⟩

theorem insertFreeRrn (held : ServedFrom start 0 dirty s) (accounted : Accounted start 0) (rrn : Rrn) :
    ServedFrom start 0 dirty ((counted poolPager).insertFreeRrn s rrn) := by
  refine ⟨(poolPager_keeps start).insertFreeRrn rrn held.pool, held.synced.insertFreeRrn rrn,
    held.queue, ?_, ?_⟩
  · intro next here
    obtain ⟨t, before, inserted⟩ := Option.bind_eq_some_iff.mp here
    rw [TreeBlocks.nodes_insertLl inserted]
    exact held.nodes t before
  · intro enough
    have longer : pagesNeeded ((counted poolPager).insertFreeRrn s rrn).1.1 s.2 =
        pagesNeeded s.1.1 s.2 + 2 := by
      have grown : ((counted poolPager).insertFreeRrn s rrn).1.1.freeRrn = rrn :: s.1.1.freeRrn := rfl
      rw [pagesNeeded, pagesNeeded, grown, List.length_cons]
      exact (by omega : ∀ a b c : Nat, 3 * a + 2 * (b + 1) + 2 * c = 3 * a + 2 * b + 2 * c + 2) _ _ _
    have room : pagesNeeded s.1.1 s.2 + 2 + 2 ≤ start.memory.freePageNum := longer ▸ enough
    obtain ⟨t, before⟩ := held.served (by omega)
    have left := held.pages accounted before
    obtain ⟨next, inserted⟩ := (held.pool.blocks t before).insertLl_some (by omega)
    exact ⟨next, Option.bind_eq_some_iff.mpr ⟨t, before, inserted⟩⟩

theorem load (held : ServedFrom start 0 dirty s) (accounted : Accounted start 0)
    (frame : List NodePtr) (rrn : Rrn) :
    ServedFrom start 0 dirty ((counted poolPager).loadBtreeNode frame s rrn).1 ∧
      ((counted poolPager).loadBtreeNode frame s rrn).1.1.1 = s.1.1 ∧
      ((counted poolPager).loadBtreeNode frame s rrn).2 = s.1.1.searchGq rrn := by
  obtain ⟨⟨cache, blocks⟩, count⟩ := s
  have kept := @Pager.Keeps.loadBtreeNode _ _ _ _ _ _ (poolPager_keeps start) _ frame rrn held.pool
    (by simp)
  have whole : (counted poolPager).loadBtreeNode frame ((cache, blocks), count) rrn =
      (((cache, blocks.bind fun t => t.loadBtreeNode cache rrn),
        if (cache.searchGq rrn).isSome then count + 1 else count), cache.searchGq rrn) := by
    simp only [counted, poolPager, cachePager_load, held.synced.load]
  rw [whole] at kept ⊢
  have notNull : ∀ found ∈ cache.searchGq rrn, found ≠ nullPtr := fun found search =>
    (held.synced.allocated found (NodeCache.searchGq_some search).1).1
  refine ⟨⟨kept, held.synced, held.queue, ?_, ?_⟩, rfl, rfl⟩
  · intro next here
    obtain ⟨t, before, loaded⟩ := Option.bind_eq_some_iff.mp here
    have same : next.nodes = t.nodes :=
      (held.pool.blocks t before).nodes_loadBtreeNode notNull loaded
    dsimp only
    rw [same]
    exact held.nodes t before
  · intro enough
    have more : pagesNeeded cache count ≤
        pagesNeeded cache (if (cache.searchGq rrn).isSome then count + 1 else count) := by
      rw [pagesNeeded, pagesNeeded]
      split_ifs <;> omega
    obtain ⟨t, before⟩ := held.served (le_trans (Nat.add_le_add_right more 2) enough)
    have left := held.pages accounted before
    dsimp only at enough left
    obtain ⟨next, loaded⟩ := (held.pool.blocks t before).loadBtreeNode_some notNull (by omega)
    exact ⟨next, Option.bind_eq_some_iff.mpr ⟨t, before, loaded⟩⟩

end ServedFrom

theorem cachePager_unfit : cachePager.Keeps none (fun _ => True) fun s => ¬Fits s where
  keys _ _ _ _ := trivial
  setNode unfit _ _ := mt (Fits.before · ⟨List.prefix_refl _, List.prefix_refl _, rfl⟩) unfit
  halves unfit _ _ _ := mt (Fits.before · ⟨List.prefix_refl _, List.prefix_refl _, rfl⟩) unfit
  allocBtreeNode unfit _ := mt (Fits.before · ⟨List.prefix_refl _, List.prefix_refl _, rfl⟩) unfit
  allocated _ _ := by simp
  clearBtreeNode _ unfit _ := mt (Fits.before · ⟨List.prefix_refl _, List.prefix_refl _, rfl⟩) unfit
  loadBtreeNode rrn unfit _ := mt (Fits.before · ((Grown.refl _).loadBtreeNode rrn)) unfit
  writeIndexRecord p unfit _ := mt (Fits.before · ((Grown.refl _).writeIndexRecord p)) unfit
  getFreeRrn unfit := mt (Fits.before · ((cachePager_grown _).getFreeRrn (Grown.refl _))) unfit
  insertFreeRrn _ unfit := mt (Fits.before · ⟨List.prefix_refl _, List.prefix_refl _, rfl⟩) unfit
  writeTombstone _ unfit := mt (Fits.before · ⟨List.prefix_refl _, List.prefix_refl _, rfl⟩) unfit

section Retains

variable {start : Heap} {s : (NodeCache × Option TreeBlocks) × Nat} {p : NodePtr}
  {node left right : BtreeNode}

theorem ServedFrom.made (held : ServedFrom start 0 [] s) (accounted : Accounted start 0)
    (fits : Fits ((counted poolPager).getFreeRrn s).1.1.1)
    (name : node.rrn = ((counted poolPager).getFreeRrn s).2) :
    ∃ made, (counted poolPager).allocBtreeNode ((counted poolPager).getFreeRrn s).1 node =
        (made, s.1.1.unused) ∧ ServedFrom start 1 [] made ∧
      s.1.1.unused ≠ nullPtr ∧ made.1.1.unused = s.1.1.unused + 1 ∧ made.1.1.gq = s.1.1.gq ∧
      made.1.1.node s.1.1.unused = node ∧ (∀ q ∈ s.1.1.gq, made.1.1.node q = s.1.1.node q) ∧
      node.rrn ∈ made.1.1.created ∧ (∀ q ∈ s.1.1.gq, (s.1.1.node q).rrn ≠ node.rrn) ∧
      made.1.1.created.length < cacheCapacity := by
  have new : node.rrn ∉ s.1.1.created := name ▸ fresh_of_distinct fits.1
  have drawn : ((counted poolPager).getFreeRrn s).2 ≠ noRrn := fun same =>
    fits.1.2 (List.mem_append_right _ (by rw [← same]; exact List.mem_singleton_self _))
  obtain ⟨taken, named⟩ := held.draw accounted drawn
  refine ⟨_, rfl, taken.alloc node named, Nat.ne_of_gt held.synced.above, rfl, rfl, ?_,
    fun q member => held.synced.draw.node_alloc member, ?_,
    fun q member same => new (same ▸ held.synced.named q member), fits.2⟩
  · exact (NodeCache.node_allocBtreeNode ..).trans (if_pos rfl)
  · rw [name]
    exact List.mem_append_right _ (List.mem_singleton_self _)

theorem poolPager_retains (accounted : Accounted start 0) :
    (counted poolPager).Retains (fun s => Fits s.1.1) (fun s p => p ∈ s.1.1.gq)
      (fun dirty s => ServedFrom start 0 dirty s) where
  unfit := poolPager_views.keeps cachePager_unfit
  cached held here := by
    have found := held.synced.search here
    simp [counted, poolPager, cachePager_cached, found]
  setNode node held here name := ⟨held.setNode node name, fun _ inside => inside⟩
  writeIndexRecord frame held here := by
    obtain ⟨t, written, clean, wrote⟩ := held.write frame here
    refine ⟨t, written, clean, fun q inside => ?_⟩
    rw [wrote]
    exact inside
  loadBtreeNode frame rrn held := by
    obtain ⟨kept, same, found⟩ := held.load accounted frame rrn
    refine ⟨⟨kept, fun q inside => by rw [same]; exact inside⟩, fun q loaded => ?_⟩
    rw [found] at loaded
    rw [same]
    exact (NodeCache.searchGq_some loaded).1
  drawn fits same :=
    fits.1.2 (List.mem_append_right _ (by rw [← same]; exact List.mem_singleton_self _))
  halves := by
    intro s p left right frame held here fits name newName
    obtain ⟨made, allocated, grown, notNull, unused, queue, content, kept, created, absent, room⟩ :=
      held.made accounted fits newName
    have different : s.1.1.unused ≠ p := Nat.ne_of_gt (held.synced.allocated p here).2
    have inside : p ∈ made.1.1.gq := queue ▸ here
    obtain ⟨t, written, clean, wrote⟩ := (grown.setNode left (by rw [kept p here]; exact name)).write
      (s.1.1.unused :: frame) inside
    have after : t.1.1.gq = s.1.1.gq := by
      rw [wrote]
      exact queue
    have nodes : ∀ q, t.1.1.node q = if q = p then left else made.1.1.node q := by
      intro q
      rw [wrote]
      exact NodeCache.node_setNode ..
    have fresh : t.1.1.node s.1.1.unused = right := by
      rw [nodes, if_neg different, content]
    have names : ∀ q ∈ s.1.1.gq, (t.1.1.node q).rrn = (s.1.1.node q).rrn := by
      intro q member
      rw [nodes]
      split_ifs with same
      · rw [same]
        exact name
      · rw [kept q member]
    have drew : t.1.1.created = made.1.1.created := by
      rw [wrote]
      rfl
    have above : t.1.1.unused = s.1.1.unused + 1 := by
      rw [wrote]
      exact unused
    obtain ⟨u, writtenNew, final, entered⟩ :=
      clean.create accounted (s.1.1.unused :: frame) notNull
        (above ▸ Nat.lt_succ_self _) (by rw [fresh, drew]; exact created) (by
          rw [after, fresh]
          intro q member
          rw [names q member]
          exact absent q member) (by rw [drew]; exact room)
    refine ⟨made, s.1.1.unused, t, u, allocated, written, writtenNew, ⟨final, fun q inside => ?_⟩, ?_⟩
    · rw [entered, after]
      exact List.mem_append_left _ inside
    · rw [entered]
      exact List.mem_append_right _ (List.mem_singleton_self _)
  create := by
    intro s node frame held fits name
    obtain ⟨made, allocated, grown, notNull, unused, queue, content, kept, created, absent, room⟩ :=
      held.made accounted fits name
    obtain ⟨t, written, clean, entered⟩ := grown.create accounted (s.1.1.unused :: frame) notNull
      (unused ▸ Nat.lt_succ_self _) (by rw [content]; exact created) (by
        rw [queue, content]
        intro q member
        rw [kept q member]
        exact absent q member) room
    refine ⟨made, s.1.1.unused, t, allocated, written, ⟨clean, fun q inside => ?_⟩, ?_⟩
    · rw [entered, queue]
      exact List.mem_append_left _ inside
    · rw [entered]
      exact List.mem_append_right _ (List.mem_singleton_self _)
  insertFreeRrn rrn held := ⟨held.insertFreeRrn accounted rrn, fun _ inside => inside⟩
  writeTombstone rrn held := by
    refine ⟨⟨(poolPager_keeps start).writeTombstone rrn held.pool, held.synced.writeTombstone rrn,
      held.queue, held.nodes, held.served⟩, fun _ inside => inside⟩

end Retains

def ServedTree (start : Heap) (b : PooledTree) : Prop :=
  RetainedTree (fun s p => p ∈ s.1.1.gq) (fun dirty s => ServedFrom start 0 dirty s) b

section Runs

variable {start : Heap} {b after : PooledTree}

section Opened

variable {heap : Heap} {own : List Block} (accounted : Accounted heap 0)
  (opened : heap.allocTreeBuf = some (start, own))

include accounted opened

theorem TreeBlocks.new_served (config : BtreeConfig) (free : List Rrn) (ioFails : Nat → Bool) :
    (∀ t, TreeBlocks.new heap free.length = some t → t.nodes.length = 0) ∧
      (2 * free.length ≤ start.memory.freePageNum →
        ∃ t, TreeBlocks.new heap free.length = some t) := by
  have begun := (Heap.allocTreeBuf_taken accounted opened).1
  induction free with
  | nil =>
      rw [List.length_nil, TreeBlocks.new, opened]
      refine ⟨?_, fun _ => ⟨_, rfl⟩⟩
      rintro _ ⟨⟩
      rfl
  | cons rrn rest ih =>
      obtain ⟨none, serves⟩ := ih
      refine ⟨fun next made => ?_, fun enough => ?_⟩
      · obtain ⟨t, before, inserted⟩ := Option.bind_eq_some_iff.mp made
        rw [TreeBlocks.nodes_insertLl inserted]
        exact none t before
      · rw [List.length_cons] at enough
        obtain ⟨t, before⟩ := serves (by omega)
        have blocks := BlocksOf.new accounted opened config rest ioFails before
        have left := blocks.pages begun
        have listed : (initCache config rest ioFails).freeRrn = rest := rfl
        have empty : (initCache config rest ioFails).gq = [] := rfl
        rw [listed, empty, none t before, List.length_nil] at left
        obtain ⟨next, inserted⟩ := blocks.insertLl_some (by omega)
        exact ⟨next, Option.bind_eq_some_iff.mpr ⟨t, before, inserted⟩⟩

theorem ServedTree.new (config : BtreeConfig) (free : List Rrn) :
    ServedTree start (PooledTree.new config free (fun _ => false) heap) := by
  obtain ⟨none, serves⟩ := TreeBlocks.new_served accounted opened config free fun _ => false
  refine ⟨⟨InPool.new accounted opened config free _, (fresh_synced config free).synced, rfl, none,
    ?_⟩, ?_⟩
  · intro enough
    have need : pagesNeeded (initCache config free fun _ => false) 0 = 2 * free.length := by
      simp [pagesNeeded, initCache]
    have room : pagesNeeded (initCache config free fun _ => false) 0 + 2 ≤
      start.memory.freePageNum := enough
    exact serves (by omega)
  · rintro root ⟨⟩

end Opened

theorem ServedTree.serve {request : TreeRequest} {answer : TreeAnswer} (tree : ServedTree start b)
    (accounted : Accounted start 0) (serves : CacheServes b.offPool request)
    (oneKey : request.OneKey) (acts : serve (counted poolPager) b request = some (after, answer)) :
    ServedTree start after := by
  have retains := poolPager_retains accounted
  cases request with
  | insert id rrn =>
      obtain ⟨status, _, shape⟩ := Option.map_eq_some_iff.mp acts
      obtain ⟨rfl, _⟩ := Prod.mk.injEq .. ▸ shape
      have same := (poolPager_views.bInsert b id rrn).1
      refine retains.bInsert id rrn tree ?_
      have fits : Fits (bInsert cachePager b.offPool id rrn).1.io := serves
      rw [BTree.offPool, ← same] at fits
      exact fits
  | remove id =>
      obtain ⟨status, _, shape⟩ := Option.map_eq_some_iff.mp acts
      obtain ⟨rfl, _⟩ := Prod.mk.injEq .. ▸ shape
      have same := (poolPager_views.bRemove b id).1
      refine retains.bRemove id tree ?_
      have root : (bRemove cachePager b.offPool id).1.root = b.offPool.root := serves.2
      rw [BTree.offPool, ← same] at root
      exact root
  | search id =>
      obtain ⟨rfl, _⟩ := Prod.mk.injEq .. ▸ Option.some.inj acts
      exact (retains.bSearch tree rfl).1
  | range range => exact oneKey.elim

theorem ServedTree.run {requests : List TreeRequest} {answers : List TreeAnswer}
    (tree : ServedTree start b) (accounted : Accounted start 0)
    (oneKey : ∀ request ∈ requests, request.OneKey)
    (admitted : Refinement.Admitted (Gaveta.serve cachePager) CacheServes b.offPool requests)
    (ran : Refinement.run (Gaveta.serve (counted poolPager)) b requests = some (after, answers)) :
    ServedTree start after := by
  induction requests generalizing b answers with
  | nil =>
      cases ran
      exact tree
  | cons request rest ih =>
      cases acts : Gaveta.serve (counted poolPager) b request with
      | none => simp [Refinement.run, acts] at ran
      | some acted =>
          obtain ⟨next, answer⟩ := acted
          rw [Refinement.run_cons acts] at ran
          obtain ⟨⟨last, later⟩, lastRan, shape⟩ := Option.map_eq_some_iff.mp ran
          obtain ⟨rfl, _⟩ := Prod.mk.injEq .. ▸ shape
          have here := oneKey request List.mem_cons_self
          have plain := poolPager_views.serve b here
          rw [acts] at plain
          exact ih (tree.serve accounted admitted.1 here acts)
            (fun other member => oneKey other (List.mem_cons_of_mem _ member))
            (admitted.2 next.offPool answer plain.symm) lastRan

end Runs

/-- A run that keeps its nodes in the cache is served from the free pages if two more than it needs are
free at its start, and is not if there are fewer than it needs. -/
theorem pool_serves_run (config : BtreeConfig) (free : List Rrn) (heap start : Heap)
    (own : List Block) (requests : List TreeRequest) (accounted : Accounted heap 0)
    (opened : heap.allocTreeBuf = some (start, own))
    (oneKey : ∀ request ∈ requests, request.OneKey)
    (admitted : Refinement.Admitted (serve cachePager) CacheServes
      (CachedTree.fresh config free fun _ => false) requests)
    (b : PooledTree) (answers : List TreeAnswer)
    (ran : Refinement.run (serve (counted poolPager))
      (PooledTree.new config free (fun _ => false) heap) requests = some (b, answers)) :
    (pagesNeeded b.offPool.io b.io.2 + 34 ≤ heap.memory.freePageNum →
      ∃ t, b.io.1.2 = some t ∧ PoolIntact t.heap ∧
        t.heap.memory.freePageNum + pagesNeeded b.offPool.io b.io.2 + 32 =
          heap.memory.freePageNum) ∧
      (heap.memory.freePageNum < pagesNeeded b.offPool.io b.io.2 + 32 → b.io.1.2 = none) := by
  obtain ⟨begun, _, opening⟩ := Heap.allocTreeBuf_taken accounted opened
  have tree := (ServedTree.new accounted opened config free).run begun oneKey admitted ran
  have held : ServedFrom start 0 [] b.io := tree.state
  refine ⟨fun enough => ?_, fun short => ?_⟩
  · have room : pagesNeeded b.offPool.io b.io.2 + 2 ≤ start.memory.freePageNum := by omega
    obtain ⟨t, served⟩ := held.served room
    have left : t.heap.memory.freePageNum + pagesNeeded b.offPool.io b.io.2 = _ :=
      held.pages begun served
    exact ⟨t, served, (held.pool.blocks t served).took.accounted.intact, by omega⟩
  · by_contra some
    obtain ⟨t, served⟩ := Option.ne_none_iff_exists'.mp some
    have left : t.heap.memory.freePageNum + pagesNeeded b.offPool.io b.io.2 = _ :=
      held.pages begun served
    omega

theorem pool_serves_run_three : ∃ b answers t,
    Refinement.run (serve (counted poolPager))
        (PooledTree.new smallConfig [1, 2, 3] (fun _ => false) emptyHeap)
        (threeEntries.map insertCall ++ [.search (singleId 98), .search (singleId 98)]) =
      some (b, answers) ∧
    b.io.1.2 = some t ∧ t.heap.memory.freePageNum = 33 := by
  have needs : (Refinement.run (serve (counted poolPager))
      (PooledTree.new smallConfig [1, 2, 3] (fun _ => false) emptyHeap)
      (threeEntries.map insertCall ++ [.search (singleId 98), .search (singleId 98)])).map
        (fun final => pagesNeeded final.1.offPool.io final.1.io.2) = some 13 := by
    decide +kernel
  have admitted : Refinement.Admitted (serve cachePager) CacheServes
      (CachedTree.fresh smallConfig [1, 2, 3] fun _ => false)
      (threeEntries.map insertCall ++ [.search (singleId 98), .search (singleId 98)]) := by
    decide +kernel
  have pages : emptyHeap.memory.freePageNum = 78 := by decide
  obtain ⟨start, own, opened⟩ := emptyHeap_opened
  obtain ⟨⟨b, answers⟩, ran, need⟩ := Option.map_eq_some_iff.mp needs
  obtain ⟨t, served, _, left⟩ := (pool_serves_run smallConfig [1, 2, 3] emptyHeap start own
    (threeEntries.map insertCall ++ [.search (singleId 98), .search (singleId 98)])
    emptyHeap_accounted opened (oneKey_calls threeEntries [singleId 98, singleId 98]) admitted b
    answers ran).1 (by rw [need, pages]; decide)
  dsimp only at need
  exact ⟨b, answers, t, ran, served, by omega⟩

end Gaveta
