import Gaveta.BTree.CachedRuns
import Gaveta.BTree.TreeBlocks
import Gaveta.BTree.Views

/-! Runs of a tree on the pool, and how many searches the free pages of a pool serve. -/

namespace Gaveta

open PagedTree

/-- `b_insert`, `b_remove` and `b_search`; `b_range_search` also takes a block for each record. -/
def TreeRequest.OneKey : TreeRequest → Prop
  | .range _ => False
  | _ => True

section Runs

variable {σ ρ : Type} [DecidableEq ρ] {pager : Pager σ ρ} {inv : σ → Prop} {b after : BTree σ ρ}

theorem Pager.Keeps.serve {request : TreeRequest} {answer : TreeAnswer}
    (keeps : pager.Keeps none (fun _ => True) inv) (oneKey : request.OneKey) (start : inv b.io)
    (acts : serve pager b request = some (after, answer)) : inv after.io := by
  cases request with
  | insert id rrn =>
      obtain ⟨status, _, shape⟩ := Option.map_eq_some_iff.mp acts
      obtain ⟨rfl, _⟩ := Prod.mk.injEq .. ▸ shape
      exact keeps.bInsert (by simp) id rrn start trivial
  | remove id =>
      obtain ⟨status, _, shape⟩ := Option.map_eq_some_iff.mp acts
      obtain ⟨rfl, _⟩ := Prod.mk.injEq .. ▸ shape
      exact (keeps.bRemove (by simp) id start).resolve_left fun root => root.2 rfl
  | search id =>
      obtain ⟨rfl, _⟩ := Prod.mk.injEq .. ▸ Option.some.inj acts
      exact keeps.bSearch (by simp) id start
  | range range => exact oneKey.elim

theorem Pager.Keeps.run {requests : List TreeRequest} {answers : List TreeAnswer}
    (keeps : pager.Keeps none (fun _ => True) inv)
    (oneKey : ∀ request ∈ requests, request.OneKey) (start : inv b.io)
    (ran : Refinement.run (Gaveta.serve pager) b requests = some (after, answers)) :
    inv after.io := by
  induction requests generalizing b answers with
  | nil =>
      cases ran
      exact start
  | cons request rest ih =>
      cases acts : Gaveta.serve pager b request with
      | none => simp [Refinement.run, acts] at ran
      | some acted =>
          obtain ⟨next, answer⟩ := acted
          rw [Refinement.run_cons acts] at ran
          obtain ⟨⟨last, later⟩, lastRan, shape⟩ := Option.map_eq_some_iff.mp ran
          obtain ⟨rfl, _⟩ := Prod.mk.injEq .. ▸ shape
          have first := keeps.serve (oneKey request List.mem_cons_self) start acts
          exact ih (fun other member => oneKey other (List.mem_cons_of_mem _ member)) first lastRan

theorem Pager.Views.serve {τ : Type} {fine : Pager σ ρ} {plain : Pager τ ρ} {view : σ → τ}
    (views : fine.Views plain view) (b : BTree σ ρ) {request : TreeRequest}
    (oneKey : request.OneKey) :
    (serve fine b request).map (fun acted => (acted.1.seen view, acted.2)) =
      serve plain (b.seen view) request := by
  cases request with
  | insert id rrn =>
      obtain ⟨state, result⟩ := views.bInsert b id rrn
      simp only [Gaveta.serve, ← state, ← result, Option.map_map, Function.comp_def]
  | remove id =>
      obtain ⟨state, result⟩ := views.bRemove b id
      simp only [Gaveta.serve, ← state, ← result, Option.map_map, Function.comp_def]
  | search id =>
      obtain ⟨state, result⟩ := views.bSearch b id
      simp only [Gaveta.serve, ← state, ← result, Option.map_some, foundRrn, views.node]
      rfl
  | range range => exact oneKey.elim

theorem Pager.Views.run {τ : Type} {fine : Pager σ ρ} {plain : Pager τ ρ} {view : σ → τ}
    (views : fine.Views plain view) (b : BTree σ ρ) {requests : List TreeRequest}
    (oneKey : ∀ request ∈ requests, request.OneKey) :
    (Refinement.run (Gaveta.serve fine) b requests).map (fun final => (final.1.seen view, final.2)) =
      Refinement.run (Gaveta.serve plain) (b.seen view) requests := by
  have lockstep : Refinement.Lockstep (Gaveta.serve fine) (Gaveta.serve plain)
      (fun _ request => request.OneKey) (fun _ _ => True) (fun _ => True) (BTree.seen view) :=
    ⟨fun b _ _ oneKey => views.serve b oneKey, fun _ _ _ _ _ _ _ => trivial,
      fun _ _ _ _ => trivial⟩
  exact (lockstep.run trivial (.of_forall oneKey)).1

end Runs

theorem poolPager_views : (counted poolPager).Views cachePager (fun s => s.1.1) where
  node _ _ := rfl
  setNode _ _ _ := rfl
  alloc _ _ := rfl
  allocated _ _ := rfl
  clear _ _ := rfl
  cached _ _ := rfl
  load _ _ _ := rfl
  loaded _ _ _ := rfl
  write _ _ _ := rfl
  written _ _ _ := rfl
  take _ := rfl
  taken _ := rfl
  free _ _ := rfl
  mark _ _ := rfl
  marked _ _ := rfl

abbrev PooledTree := BTree ((NodeCache × Option TreeBlocks) × Nat) NodePtr

def CachedTree.onPool (b : CachedTree) (t : Option TreeBlocks) (loads : Nat) : PooledTree where
  root := b.root
  config := b.config
  io := ((b.io, t), loads)

def BTree.offPool (b : PooledTree) : CachedTree := b.seen fun s => s.1.1

def PooledTree.new (config : BtreeConfig) (free : List Rrn) (ioFails : Nat → Bool) (heap : Heap) :
    PooledTree :=
  CachedTree.onPool (CachedTree.fresh config free ioFails) (TreeBlocks.new heap free.length) 0

section Opened

variable {heap start : Heap} {own : List Block} (accounted : Accounted heap 0)
  (opened : heap.allocTreeBuf = some (start, own))

include accounted opened

theorem InPool.new (config : BtreeConfig) (free : List Rrn) (ioFails : Nat → Bool) :
    InPool start ((initCache config free ioFails, TreeBlocks.new heap free.length), 0) :=
  ⟨⟨Nat.zero_lt_one, fun p member => by cases member⟩,
    fun _ made => .new accounted opened config free ioFails made⟩

theorem blocksOf_run {config : BtreeConfig} {free : List Rrn} {ioFails : Nat → Bool}
    {requests : List TreeRequest} {answers : List TreeAnswer}
    {b : PooledTree} {t : TreeBlocks} (oneKey : ∀ request ∈ requests, request.OneKey)
    (ran : Refinement.run (serve (counted poolPager))
      (PooledTree.new config free ioFails heap) requests = some (b, answers))
    (served : b.io.1.2 = some t) :
    BlocksOf start b.offPool.io b.io.2 t := by
  have held := InPool.new accounted opened config free ioFails
  exact ((poolPager_keeps start).run oneKey held ran).blocks t served

end Opened

def emptyHeap : Heap := { memory := initMemory 0 (fun _ => 0) 80000, live := [] }

theorem emptyHeap_accounted : Accounted emptyHeap 0 := .start 0 (fun _ => 0) (by decide)

theorem emptyHeap_opened : ∃ start own, emptyHeap.allocTreeBuf = some (start, own) := by
  have opens : emptyHeap.allocTreeBuf.isSome = true := by decide +kernel
  obtain ⟨⟨start, own⟩, opened⟩ := Option.isSome_iff_exists.mp opens
  exact ⟨start, own, opened⟩

theorem oneKey_calls (entries : List (CString × Rrn)) (ids : List CString) :
    ∀ request ∈ entries.map insertCall ++ ids.map .search, request.OneKey := by
  intro request member
  rcases List.mem_append.mp member with insertion | search
  · obtain ⟨entry, _, rfl⟩ := List.mem_map.mp insertion
    trivial
  · obtain ⟨id, _, rfl⟩ := List.mem_map.mp search
    trivial

def TreeBlocks.lose (t : TreeBlocks) : Option TreeBlocks := do
  let (heap, bn, node) ← t.heap.gAllocPair sizeofBtreeNode queueNodeSize
  some { t with heap := heap, lost := node :: bn :: t.lost }

def drain (count : Nat) : Option TreeBlocks → Option TreeBlocks :=
  (fun t => t.bind TreeBlocks.lose)^[count]

structure Drained (start : Heap) (s : NodeCache) (loads count : Nat) (t after : TreeBlocks) :
    Prop where
  blocks : BlocksOf start s (loads + count) after
  free : after.heap.memory.freePageNum + 2 * count = t.heap.memory.freePageNum
  nodes : after.nodes = t.nodes
  entries : after.entries = t.entries
  freeRrn : after.freeRrn = t.freeRrn

section Search

variable {start : Heap} {s : NodeCache} {loads : Nat} {t : TreeBlocks} {b : CachedTree}

theorem BlocksOf.lose (blocks : BlocksOf start s loads t) {after : TreeBlocks}
    (lost : t.lose = some after) : Drained start s loads 1 t after := by
  simp only [TreeBlocks.lose, Option.bind_eq_bind, Option.bind_eq_some_iff, Prod.exists,
    Option.some.injEq] at lost
  obtain ⟨heap, bn, node, allocated, rfl⟩ := lost
  have took := blocks.took.gAllocPair rfl rfl allocated
  have before := blocks.took.total
  have now := took.total
  rw [List.length_cons, List.length_cons] at now
  refine ⟨⟨took.perm ?_, blocks.entries, blocks.freeRrn, ?_⟩, by dsimp only; omega, rfl, rfl, rfl⟩
  · refine List.perm_iff_count.mpr fun block => ?_
    simp only [TreeBlocks.owned, List.count_append, List.count_cons]
    omega
  · simp only [List.length_cons, blocks.lost]
    omega

theorem BlocksOf.lose_eq_none_iff (blocks : BlocksOf start s loads t) :
    t.lose = none ↔ t.heap.memory.freePageNum < 2 := by
  constructor
  · intro stuck
    by_contra enough
    obtain ⟨after, bn, node, allocated⟩ := blocks.took.gAllocPair_some sizeofBtreeNode queueNodeSize
      rfl rfl (by decide) (by decide) (by omega)
    simp [TreeBlocks.lose, allocated] at stuck
  · intro few
    cases lost : t.lose with
    | none => rfl
    | some after =>
        have drained := blocks.lose lost
        have free := drained.free
        omega

theorem BlocksOf.drained (blocks : BlocksOf start s loads t) (count : Nat) :
    (drain count (some t) = none ↔ t.heap.memory.freePageNum < 2 * count) ∧
      ∀ after, drain count (some t) = some after → Drained start s loads count t after := by
  induction count with
  | zero =>
      refine ⟨by simp [drain], ?_⟩
      rintro _ ⟨⟩
      exact ⟨blocks, rfl, rfl, rfl, rfl⟩
  | succ count ih =>
      rw [drain, Function.iterate_succ_apply', ← drain]
      obtain ⟨stuck, drains⟩ := ih
      cases reached : drain count (some t) with
      | none =>
          have few := stuck.mp reached
          refine ⟨⟨fun _ => by omega, fun _ => rfl⟩, ?_⟩
          rintro _ ⟨⟩
      | some middle =>
          have first := drains middle reached
          have free := first.free
          rw [Option.bind_some]
          refine ⟨?_, fun after lost => ?_⟩
          · rw [first.blocks.lose_eq_none_iff]
            omega
          · have second := first.blocks.lose lost
            have left := second.free
            exact ⟨second.blocks, by omega, second.nodes.trans first.nodes,
              second.entries.trans first.entries, second.freeRrn.trans first.freeRrn⟩

variable {p : NodePtr} {rrn : Rrn} {held : List NodePtr} {names : List Rrn} {id : CString}
  {root : Option NodePtr} {top : Option Rrn}

theorem TreeBlocks.loadBtreeNode_found (search : s.searchGq rrn = some p) (real : p ≠ nullPtr) :
    t.loadBtreeNode s rrn = t.lose := by
  simp only [TreeBlocks.loadBtreeNode, TreeBlocks.lose, search, real, ne_eq, not_false_eq_true,
    ↓reduceIte]

theorem searchKey_pool {fuel : Nat} (synced : Synced [] s) (member : p ∈ s.gq)
    (ends : (searchKey cachePager root fuel held s p id).2.2 ≠ none) :
    ∃ loads, (∀ count, (searchKey (counted residentPager) top fuel names (s.resident, count)
        (s.node p).rrn id).1 = (s.resident, count + loads)) ∧
      ∀ t count, (searchKey (counted poolPager) root fuel held ((s, t), count) p id).1 =
        ((s, drain loads t), count + loads) := by
  induction fuel generalizing held p names with
  | zero => exact ⟨0, fun _ => rfl, fun _ _ => rfl⟩
  | succ fuel ih =>
      have content := synced.read member
      have plainNode : ∀ count q,
          (counted residentPager).node (s.resident, count) q = s.resident.read q := fun _ _ => rfl
      have node : ∀ t count q, (counted poolPager).node ((s, t), count) q = s.node q :=
        fun _ _ _ => rfl
      by_cases found : (searchInBtreeNode (s.node p) id).1 = .foundKey
      · refine ⟨0, fun _ => ?_, fun _ _ => ?_⟩
        · simp only [searchKey, plainNode, content, found, ↓reduceIte, Nat.add_zero]
        · simp only [searchKey, node, found, ↓reduceIte, Nat.add_zero]
          rfl
      by_cases leaf : (s.node p).leaf = true
      · refine ⟨0, fun _ => ?_, fun _ _ => ?_⟩
        · simp only [searchKey, plainNode, content, found, leaf, ↓reduceIte, Nat.add_zero]
        · simp only [searchKey, node, found, leaf, ↓reduceIte, Nat.add_zero]
          rfl
      have branch : (s.node p).leaf = false := by simpa using leaf
      cases search : s.searchGq ((s.node p).child (searchInBtreeNode (s.node p) id).2) with
      | none =>
          simp only [searchKey, cachePager_node, found, branch, cachePager_load, synced.load, search,
            Bool.false_eq_true, ↓reduceIte, ne_eq, not_true_eq_false] at ends
      | some child =>
          have inside := (NodeCache.searchGq_some search).1
          have real := (synced.allocated child inside).1
          simp only [searchKey, cachePager_node, found, branch, cachePager_load, synced.load, search,
            Bool.false_eq_true, ↓reduceIte] at ends
          obtain ⟨loads, plain, pooled⟩ :=
            @ih child (p :: held) ((s.node p).rrn :: names) inside ends
          refine ⟨loads + 1, fun count => ?_, fun t count => ?_⟩
          · have loaded : ∀ names, (counted residentPager).loadBtreeNode names (s.resident, count)
                ((s.node p).child (searchInBtreeNode (s.node p) id).2) =
                ((s.resident, count + 1), some (s.node child).rrn) := by
              intro names
              simp only [counted, Synced.plainLoad, search, Option.map_some, Option.isSome_some,
                ↓reduceIte]
            have kept : ∀ t q, dropUncached (counted residentPager) top t q = t := by
              intro t q
              simp [dropUncached, counted]
            simp only [searchKey, plainNode, content, found, branch, loaded, plain, kept,
              Bool.false_eq_true, ↓reduceIte]
            rw [Nat.add_assoc, Nat.add_comm 1]
          · have loaded : ∀ held, (counted poolPager).loadBtreeNode held ((s, t), count)
                ((s.node p).child (searchInBtreeNode (s.node p) id).2) =
                (((s, t.bind TreeBlocks.lose), count + 1), some child) := by
              intro held
              simp only [counted, poolPager, cachePager_load, synced.load, search,
                TreeBlocks.loadBtreeNode_found search real, Option.isSome_some, ↓reduceIte]
            have kept : ∀ t count, dropUncached (counted poolPager) root ((s, t), count) child =
                ((s, t), count) := by
              intro t count
              have cached := synced.search inside
              simp [dropUncached, counted, poolPager, cachePager, cached]
            simp only [searchKey, node, found, branch, loaded, pooled, kept, Bool.false_eq_true,
              ↓reduceIte]
            rw [Nat.add_assoc, Nat.add_comm 1]
            rfl

end Search

section Searches

variable {b : CachedTree} {id : CString}

theorem SyncedTree.search_pool (tree : SyncedTree b)
    (ends : b.root = none ∨ (bSearch cachePager b id).2.1 ≠ none) (t : Option TreeBlocks)
    (count : Nat) :
    (bSearch (counted poolPager) (CachedTree.onPool b t count) id).1 =
      CachedTree.onPool b (drain (searchLoads residentPager b.resident id) t)
        (count + searchLoads residentPager b.resident id) := by
  obtain ⟨top, config, s⟩ := b
  cases top with
  | none => rfl
  | some root =>
      replace ends := ends.resolve_left (by simp)
      have reached : (searchKey cachePager (some root) depthLimit [] s root id).2.2 ≠ none := by
        intro stops
        refine ends ?_
        simp only [bSearch, stops]
      obtain ⟨loads, plain, pooled⟩ :=
        @searchKey_pool s root [] [] id (some root) (some (s.node root).rrn) depthLimit tree.synced
          (tree.root root rfl) reached
      have same : searchLoads residentPager (BTree.resident ⟨some root, config, s⟩) id = loads := by
        have rooted : (BTree.mk (some (s.node root).rrn) config (s.resident, 0)).root =
            some (s.node root).rrn := rfl
        change (bSearch (counted residentPager)
          ⟨some (s.node root).rrn, config, (s.resident, 0)⟩ id).1.io.2 = loads
        rw [bSearch_io rooted, plain, Nat.zero_add]
      have rooted : (CachedTree.onPool ⟨some root, config, s⟩ t count).root = some root := rfl
      have io := @bSearch_io id _ _ _ (counted poolPager) _ _ rooted
      have state : (bSearch (counted poolPager) (CachedTree.onPool ⟨some root, config, s⟩ t count)
          id).1.offPool = (bSearch cachePager ⟨some root, config, s⟩ id).1 :=
        (poolPager_views.bSearch (CachedTree.onPool ⟨some root, config, s⟩ t count) id).1
      obtain ⟨found, pos, cached, _⟩ := tree.search id
      rw [same]
      rw [cached] at state
      generalize (bSearch (counted poolPager)
        (CachedTree.onPool ⟨some root, config, s⟩ t count) id).1 = after at state io ⊢
      obtain ⟨top, settings, storage⟩ := after
      obtain ⟨rfl, rfl, _⟩ := BTree.mk.inj state
      exact congrArg (BTree.mk _ _) (io.trans (pooled t count))

theorem SyncedTree.searches_pool (tree : SyncedTree b) {height : Nat} {ids : List CString}
    (ends : ∀ id ∈ ids, b.root = none ∨ (bSearch cachePager b id).2.1 ≠ none)
    (deep : ∀ id ∈ ids, searchLoads residentPager b.resident id = height) (t : Option TreeBlocks)
    (count : Nat) :
    Refinement.run (Gaveta.serve (counted poolPager)) (CachedTree.onPool b t count)
        (ids.map TreeRequest.search) =
      (Refinement.run (Gaveta.serve cachePager) b (ids.map TreeRequest.search)).map fun final =>
        (CachedTree.onPool b (drain (height * ids.length) t) (count + height * ids.length),
          final.2) := by
  induction ids generalizing t count with
  | nil => rfl
  | cons id rest ih =>
      have here := tree.search_pool (ends id List.mem_cons_self) t count
      rw [deep id List.mem_cons_self] at here
      obtain ⟨found, pos, cached, _⟩ := tree.search id
      have acts : Gaveta.serve cachePager b (.search id) =
          some (b, .record (foundRrn cachePager b.io found pos)) := by
        rw [Gaveta.serve]
        simp only [cached]
      have same : (bSearch (counted poolPager) (CachedTree.onPool b t count) id).2 = (found, pos) :=
        (poolPager_views.bSearch (CachedTree.onPool b t count) id).2.trans
          (congrArg Prod.snd cached)
      have pooled : Gaveta.serve (counted poolPager) (CachedTree.onPool b t count) (.search id) =
          some (CachedTree.onPool b (drain height t) (count + height),
            .record (foundRrn cachePager b.io found pos)) := by
        rw [Gaveta.serve]
        simp only [here, same]
        rfl
      have more : drain (height * rest.length) (drain height t) =
          drain (height * (id :: rest).length) t := by
        rw [drain, drain, drain, ← Function.iterate_add_apply, List.length_cons, Nat.mul_succ]
      have total : count + height + height * rest.length = count + height * (id :: rest).length := by
        rw [List.length_cons, Nat.mul_succ]
        omega
      rw [List.map_cons, Refinement.run_cons acts, Refinement.run_cons pooled,
        ih (fun other member => ends other (List.mem_cons_of_mem _ member))
          (fun other member => deep other (List.mem_cons_of_mem _ member)),
        Option.map_map, Option.map_map, more, total]
      rfl

theorem SyncedTree.searches_admitted (tree : SyncedTree b) {ids : List CString}
    (passes : ∀ id ∈ ids, ¬SeparatorOf b.resident id) :
    Refinement.Admitted (Gaveta.serve cachePager)
      (fun b request => CacheServes b request ∧ Serves b.resident request) b
      (ids.map TreeRequest.search) := by
  induction ids with
  | nil => trivial
  | cons id rest ih =>
      refine ⟨⟨trivial, passes id List.mem_cons_self⟩, fun next answer acts => ?_⟩
      obtain ⟨found, pos, cached, _⟩ := tree.search id
      obtain ⟨rfl, _⟩ := Prod.mk.injEq .. ▸ Option.some.inj acts
      rw [cached]
      exact ih fun other member => passes other (List.mem_cons_of_mem _ member)

theorem SyncedTree.ends (tree : SyncedTree b) {order : Nat} {keys : List Key}
    (state : DictionaryState order b.resident keys) (passes : ¬SeparatorOf b.resident id) :
    b.root = none ∨ (bSearch cachePager b id).2.1 ≠ none := by
  rcases state.tree with ⟨empty, _⟩ | ⟨height, plainTree, held⟩
  · exact Or.inl (Option.map_eq_none_iff.mp empty)
  · refine Or.inr fun missing => ?_
    obtain ⟨found, pos, cached, _, plain⟩ := tree.search id
    rw [cached] at missing
    obtain rfl : found = none := missing
    rw [held.valid.separatorOf_iff] at passes
    rcases held.valid.bSearch_descend passes with
      ⟨before, key, after, _, _, answer⟩ | ⟨_, answer⟩
    · cases answer.symm.trans plain
    · cases answer.symm.trans plain

end Searches

end Gaveta
