import Gaveta.BTree.CacheCoherence
import Gaveta.BTree.EvictionStep
import Mathlib.Data.List.Find

/-!
The cache against memory that keeps every node: what each access to the storage does to both, while the
cache has room for all nodes.
-/

namespace Gaveta

/-- What `load_btree_node` reaches through the cache. -/
@[simps] def NodeCache.resident (s : NodeCache) : Resident where
  nodes rrn := (s.searchGq rrn).map s.node
  freeRrn := s.freeRrn
  created := s.created
  ioFails := s.ioFails
  writes := s.writes
  tombstones := s.tombstones

def indexSlot (config : BtreeConfig) (rrn : Rrn) : Int := (writeIndexRecordRegion config rrn).offset

def SlotsApart (config : BtreeConfig) : Prop :=
  ∀ rrn other, indexSlot config rrn = indexSlot config other → rrn = other

/-- A cache without repeated record numbers, whose nodes are in the index file except `dirty`. -/
structure Synced (dirty : List NodePtr) (s : NodeCache) : Prop where
  size : s.cacheSize = s.gq.length
  above : nullPtr < s.unused
  allocated : ∀ p ∈ s.gq, p ≠ nullPtr ∧ p < s.unused
  distinct : (s.gq.map fun p => (s.node p).rrn).Nodup
  named : ∀ p ∈ s.gq, (s.node p).rrn ∈ s.created
  works : ∀ n, s.ioFails n = false
  saved : SlotsApart s.config → ∀ p ∈ s.gq, p ∉ dirty →
    s.index (indexSlot s.config (s.node p).rrn) = some (s.node p)

section Pager

variable (s : NodeCache) (p : NodePtr) (content : BtreeNode) (held : List NodePtr) (rrn : Rrn)

theorem cachePager_node : cachePager.node s p = s.node p := rfl

theorem cachePager_setNode : cachePager.setNode s p content = s.setNode p content := rfl

theorem cachePager_alloc :
    cachePager.allocBtreeNode s content = (s.allocBtreeNode content, s.unused) := rfl

theorem cachePager_cached :
    cachePager.cached s p = (s.searchGq (s.node p).rrn).isSome := rfl

theorem cachePager_load :
    cachePager.loadBtreeNode held s rrn = s.loadBtreeNode held rrn := rfl

theorem cachePager_write :
    cachePager.writeIndexRecord held s p = s.writeIndexRecord held p := rfl

end Pager

section Steps

variable {s t : NodeCache} {p q : NodePtr} {dirty held : List NodePtr} {content : BtreeNode}

theorem searchGq_congr (s t : NodeCache) (queue : t.gq = s.gq)
    (names : ∀ p ∈ s.gq, (t.node p).rrn = (s.node p).rrn) (rrn : Rrn) :
    t.searchGq rrn = s.searchGq rrn := by
  rw [NodeCache.searchGq, NodeCache.searchGq, queue]
  refine List.find?_congr fun p member => ?_
  rw [names p member]

theorem resident_congr (nodes : ∀ p ∈ s.gq, t.node p = s.node p) (queue : t.gq = s.gq)
    (freeRrn : t.freeRrn = s.freeRrn) (created : t.created = s.created)
    (ioFails : t.ioFails = s.ioFails) (writes : t.writes = s.writes)
    (tombstones : t.tombstones = s.tombstones) : t.resident = s.resident := by
  rw [NodeCache.resident, NodeCache.resident, Resident.mk.injEq]
  refine ⟨funext fun rrn => ?_, freeRrn, created, ioFails, writes, tombstones⟩
  rw [searchGq_congr s t queue (fun p member => congrArg BtreeNode.rrn (nodes p member)) rrn]
  refine Option.map_congr fun p found => ?_
  exact nodes p (NodeCache.searchGq_some found).1

namespace Synced

theorem same_of_rrn (synced : Synced dirty s) (here : p ∈ s.gq) (there : q ∈ s.gq)
    (same : (s.node p).rrn = (s.node q).rrn) : p = q :=
  List.inj_on_of_nodup_map synced.distinct here there same

theorem search (synced : Synced dirty s) (member : p ∈ s.gq) :
    s.searchGq (s.node p).rrn = some p := by
  obtain ⟨found, search⟩ := Option.isSome_iff_exists.mp (s.searchGq_isSome member)
  obtain ⟨inside, same⟩ := NodeCache.searchGq_some search
  rw [search, synced.same_of_rrn inside member same]

theorem nodes (synced : Synced dirty s) (member : p ∈ s.gq) :
    s.resident.nodes (s.node p).rrn = some (s.node p) := by
  rw [NodeCache.resident_nodes, synced.search member, Option.map_some]

theorem read (synced : Synced dirty s) (member : p ∈ s.gq) :
    s.resident.read (s.node p).rrn = s.node p := by
  rw [Resident.read, synced.nodes member, Option.getD_some]

theorem load (synced : Synced dirty s) (rrn : Rrn) :
    s.loadBtreeNode held rrn = (s, s.searchGq rrn) := by
  cases search : s.searchGq rrn with
  | none => rw [NodeCache.loadBtreeNode, search]
  | some p =>
      exact loadBtreeNode_found search (synced.allocated p (NodeCache.searchGq_some search).1).1

theorem plainLoad (s : NodeCache) (names : List Rrn) (rrn : Rrn) :
    residentPager.loadBtreeNode names s.resident rrn =
      (s.resident, (s.searchGq rrn).map fun p => (s.node p).rrn) := by
  rw [residentPager_load, NodeCache.resident_nodes]
  cases search : s.searchGq rrn with
  | none => rfl
  | some p =>
      rw [Option.map_some, Option.map_some, (NodeCache.searchGq_some search).2]
      rfl

theorem length_lt (synced : Synced dirty s) {new : Rrn} (known : new ∈ s.created)
    (absent : ∀ p ∈ s.gq, (s.node p).rrn ≠ new) : s.gq.length < s.created.length := by
  have distinct : (new :: s.gq.map fun p => (s.node p).rrn).Nodup := by
    rw [List.nodup_cons]
    refine ⟨fun member => ?_, synced.distinct⟩
    obtain ⟨p, inside, same⟩ := List.mem_map.mp member
    exact absent p inside same
  have inside : (new :: s.gq.map fun p => (s.node p).rrn) ⊆ s.created := by
    intro rrn member
    rcases List.mem_cons.mp member with rfl | member
    · exact known
    · obtain ⟨p, inside, rfl⟩ := List.mem_map.mp member
      exact synced.named p inside
  have length := (distinct.subperm inside).length_le
  rw [List.length_cons, List.length_map] at length
  exact length

theorem draw (synced : Synced dirty s) : Synced dirty (cachePager.getFreeRrn s).1 :=
  ⟨synced.size, synced.above, synced.allocated, synced.distinct,
    fun p member => List.mem_append_left _ (synced.named p member), synced.works, synced.saved⟩

theorem insertFreeRrn (synced : Synced dirty s) (rrn : Rrn) :
    Synced dirty (cachePager.insertFreeRrn s rrn) :=
  ⟨synced.size, synced.above, synced.allocated, synced.distinct, synced.named, synced.works,
    synced.saved⟩

theorem writeTombstone (synced : Synced dirty s) (rrn : Rrn) :
    Synced dirty (cachePager.writeTombstone s rrn).1 :=
  ⟨synced.size, synced.above, synced.allocated, synced.distinct, synced.named, synced.works,
    synced.saved⟩

theorem node_alloc (synced : Synced dirty s) (member : p ∈ s.gq) :
    (s.allocBtreeNode content).node p = s.node p := by
  rw [NodeCache.node_allocBtreeNode, if_neg (Nat.ne_of_lt (synced.allocated p member).2)]

theorem alloc (synced : Synced dirty s) (content : BtreeNode) :
    Synced dirty (s.allocBtreeNode content) := by
  have same : ∀ p ∈ s.gq, (s.allocBtreeNode content).node p = s.node p := fun p member =>
    synced.node_alloc member
  refine ⟨synced.size, Nat.lt_succ_of_lt synced.above, ?_, ?_, ?_, synced.works, ?_⟩
  · intro p member
    obtain ⟨notNull, old⟩ := synced.allocated p member
    exact ⟨notNull, Nat.lt_succ_of_lt old⟩
  · have names : s.gq.map (fun p => ((s.allocBtreeNode content).node p).rrn) =
        s.gq.map fun p => (s.node p).rrn :=
      List.map_congr_left fun p member => by rw [same p member]
    exact names ▸ synced.distinct
  · intro p member
    rw [same p member]
    exact synced.named p member
  · intro apart p member clean
    rw [same p member]
    exact synced.saved apart p member clean

theorem alloc_resident (synced : Synced dirty s) (content : BtreeNode) :
    (s.allocBtreeNode content).resident = s.resident :=
  resident_congr (fun _ member => synced.node_alloc member) rfl rfl rfl rfl rfl rfl

theorem node_set (content : BtreeNode) (name : content.rrn = (s.node p).rrn) (q : NodePtr) :
    ((s.setNode p content).node q).rrn = (s.node q).rrn := by
  rw [NodeCache.node_setNode]
  split_ifs with same
  · rw [name, same]
  · rfl

theorem setNode (synced : Synced dirty s) (name : content.rrn = (s.node p).rrn) :
    Synced (p :: dirty) (s.setNode p content) := by
  have names := node_set (s := s) content name
  refine ⟨synced.size, synced.above, synced.allocated, ?_, ?_, synced.works, ?_⟩
  · simp only [names]
    exact synced.distinct
  · intro q member
    rw [names]
    exact synced.named q member
  · intro apart q member clean
    rw [List.mem_cons, not_or] at clean
    rw [NodeCache.node_setNode, if_neg clean.1]
    exact synced.saved apart q member clean.2

theorem setNode_resident (synced : Synced dirty s) (member : p ∈ s.gq)
    (name : content.rrn = (s.node p).rrn) :
    (s.setNode p content).resident = s.resident.store (s.node p).rrn content := by
  have names := node_set (s := s) content name
  rw [NodeCache.resident, Resident.store, Resident.mk.injEq]
  refine ⟨funext fun rrn => ?_, rfl, rfl, rfl, rfl, rfl⟩
  have search : (s.setNode p content).searchGq rrn = s.searchGq rrn :=
    searchGq_congr s (s.setNode p content) rfl (fun q _ => names q) rrn
  rw [search, Function.update_apply]
  split_ifs with same
  · rw [same, synced.search member, Option.map_some, NodeCache.node_setNode, if_pos rfl]
  · cases found : s.searchGq rrn with
    | none => rw [NodeCache.resident_nodes, found, Option.map_none, Option.map_none]
    | some q =>
        have other : q ≠ p := by
          rintro rfl
          exact same (NodeCache.searchGq_some found).2.symm
        rw [NodeCache.resident_nodes, found, Option.map_some, Option.map_some,
          NodeCache.node_setNode, if_neg other]

theorem wrote (synced : Synced (p :: dirty) s)
    (alone : ∀ q ∈ s.gq, (s.node q).rrn = (s.node p).rrn → q = p) : Synced dirty (s.wrote p) := by
  refine ⟨synced.size, synced.above, synced.allocated, synced.distinct, synced.named, synced.works,
    fun apart q member clean => ?_⟩
  have index : (s.wrote p).index =
      Function.update s.index (indexSlot s.config (s.node p).rrn) (some (s.node p)) := rfl
  rw [index, NodeCache.node_wrote, NodeCache.wrote_config, Function.update_apply]
  split_ifs with same
  · rw [alone q member (apart _ _ same)]
  · have other : q ≠ p := by
      rintro rfl
      exact same rfl
    exact synced.saved apart q member (List.not_mem_cons_of_ne_of_not_mem other clean)

theorem wrote_resident (s : NodeCache) (p : NodePtr) :
    (s.wrote p).resident = s.resident.wrote := rfl

theorem write (synced : Synced (p :: dirty) s) (member : p ∈ s.gq) :
    s.writeIndexRecord held p = (s.wrote p, .success) ∧ Synced dirty (s.wrote p) :=
  ⟨NodeCache.writeIndexRecord_cached synced.works (synced.allocated p member).1 member,
    synced.wrote fun _ inside same => synced.same_of_rrn inside member same⟩

theorem create (synced : Synced [] s) (notNull : p ≠ nullPtr) (old : p < s.unused)
    (named : (s.node p).rrn ∈ s.created) (absent : ∀ q ∈ s.gq, (s.node q).rrn ≠ (s.node p).rrn)
    (room : s.created.length < cacheCapacity) :
    ∃ t, s.writeIndexRecord held p = (t, .success) ∧ Synced [] t ∧ t.gq = s.gq ++ [p] ∧
      t.node = s.node ∧ t.created = s.created ∧
      t.resident = (s.resident.store (s.node p).rrn (s.node p)).wrote := by
  have missing : s.searchGq (s.node p).rrn = none := NodeCache.searchGq_eq_none_iff.mpr absent
  have fits : s.gq.length < s.created.length := synced.length_lt named absent
  have space : (s.wrote p).cacheSize + 1 < cacheCapacity := by
    rw [NodeCache.wrote_cacheSize, synced.size]
    omega
  have wrote : Synced [] (s.wrote p) := by
    refine Synced.wrote ⟨synced.size, synced.above, synced.allocated, synced.distinct, synced.named,
      synced.works, fun apart q member _ => synced.saved apart q member List.not_mem_nil⟩ ?_
    intro q member same
    exact absurd same (absent q member)
  rw [NodeCache.writeIndexRecord_new synced.works notNull missing, NodeCache.pushGq_room space]
  refine ⟨_, rfl, ⟨?_, wrote.above, ?_, ?_, ?_, wrote.works, ?_⟩, rfl, rfl, rfl, ?_⟩
  · simp [synced.size]
  · intro q member
    rcases List.mem_append.mp member with before | new
    · exact synced.allocated q before
    · rw [List.mem_singleton.mp new]
      exact ⟨notNull, old⟩
  · have distinct : ((s.gq ++ [p]).map fun q => (s.node q).rrn).Nodup := by
      rw [List.map_append, List.map_singleton, ← List.concat_eq_append, List.nodup_concat]
      refine ⟨fun member => ?_, synced.distinct⟩
      obtain ⟨q, inside, same⟩ := List.mem_map.mp member
      exact absent q inside same
    exact distinct
  · intro q member
    rcases List.mem_append.mp member with before | new
    · exact synced.named q before
    · rw [List.mem_singleton.mp new]
      exact named
  · intro apart q member clean
    rcases List.mem_append.mp member with before | new
    · exact wrote.saved apart q before clean
    · rw [List.mem_singleton.mp new]
      exact Function.update_self ..
  · rw [NodeCache.resident, Resident.wrote, Resident.store, Resident.mk.injEq]
    refine ⟨funext fun rrn => ?_, rfl, rfl, rfl, rfl, rfl⟩
    have search : NodeCache.searchGq
        { s.wrote p with gq := s.gq ++ [p], cacheSize := (s.wrote p).cacheSize + 1 } rrn =
        (s.searchGq rrn).or ([p].find? fun q => (s.node q).rrn = rrn) := List.find?_append
    refine (congrArg (Option.map s.node) search).trans ?_
    dsimp only
    rw [Function.update_apply]
    split_ifs with same
    · rw [same, missing, Option.none_or, List.find?_singleton]
      simp
    · have other : ¬(s.node p).rrn = rrn := fun named => same named.symm
      rw [List.find?_singleton]
      simp [other]

end Synced

end Steps

end Gaveta
