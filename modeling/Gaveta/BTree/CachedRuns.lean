import Gaveta.BTree.CachedRemoval

/-! Runs of a tree on the cache: their answers, and what the index file holds after them. -/

namespace Gaveta

open PagedTree

/-- An insertion leaves room in the cache and draws only new record numbers; a removal reads no key
behind those of a leaf and leaves one. -/
def CacheServes (b : CachedTree) : TreeRequest → Prop
  | .insert id rrn => Fits (bInsert cachePager b id rrn).1.io
  | .remove id =>
      (bRemove cachePager b id).2 ≠ none ∧ (bRemove cachePager b id).1.root = b.root
  | .search _ => True
  | .range _ => True

instance (s : NodeCache) : Decidable (Fits s) := inferInstanceAs (Decidable (_ ∧ _))

instance : ∀ b request, Decidable (CacheServes b request)
  | b, .insert id rrn => inferInstanceAs (Decidable (Fits (bInsert cachePager b id rrn).1.io))
  | b, .remove id => inferInstanceAs (Decidable (_ ∧ (bRemove cachePager b id).1.root = b.root))
  | _, .search _ => inferInstanceAs (Decidable True)
  | _, .range _ => inferInstanceAs (Decidable True)

section Calls

variable {b : CachedTree}

theorem SyncedTree.serve (tree : SyncedTree b) (request : TreeRequest)
    (serves : CacheServes b request) :
    (serve cachePager b request).map (fun acted => (acted.1.resident, acted.2)) =
        serve residentPager b.resident request ∧
      ∀ acted ∈ serve cachePager b request, SyncedTree acted.1 := by
  cases request with
  | insert id rrn =>
      obtain ⟨kept, plain⟩ := tree.insert serves
      refine ⟨by simp only [Gaveta.serve, plain, Option.map_map, Function.comp_def], ?_⟩
      intro acted returned
      obtain ⟨status, _, rfl⟩ := Option.map_eq_some_iff.mp returned
      exact kept
  | remove id =>
      obtain ⟨kept, plain⟩ := tree.remove serves.2
      refine ⟨by simp only [Gaveta.serve, plain, Option.map_map, Function.comp_def], ?_⟩
      intro acted returned
      obtain ⟨status, _, rfl⟩ := Option.map_eq_some_iff.mp returned
      exact kept
  | search id =>
      obtain ⟨found, pos, cached, known, plain⟩ := tree.search id
      simp only [Gaveta.serve, plain, cached, Option.map_some]
      refine ⟨?_, ?_⟩
      · cases found with
        | none => rfl
        | some p =>
            have content : b.resident.io.read (b.io.node p).rrn = b.io.node p :=
              tree.synced.read (known p rfl)
            simp only [foundRrn, Option.map_some, Option.bind_some, residentPager_node, content,
              cachePager_node]
      · rintro _ ⟨⟩
        exact tree
  | range range =>
      obtain ⟨plain, kept⟩ := tree.range range
      refine ⟨by simp only [Gaveta.serve, plain, Option.map_map, Function.comp_def], ?_⟩
      intro acted answered
      obtain ⟨found, scanned, rfl⟩ := Option.map_eq_some_iff.mp answered
      rw [kept found scanned]
      exact tree

theorem fresh_resident (config : BtreeConfig) (free : List Rrn) :
    (CachedTree.fresh config free fun _ => false).resident =
      allocTreeBuf config free fun _ => false := rfl

theorem fresh_synced (config : BtreeConfig) (free : List Rrn) :
    SyncedTree (CachedTree.fresh config free fun _ => false) := by
  refine ⟨⟨rfl, Nat.zero_lt_one, ?_, List.nodup_nil, ?_, fun _ => rfl, ?_⟩, ?_⟩
  · intro p member
    cases member
  · intro p member
    cases member
  · intro _ p member
    cases member
  · intro root found
    cases found

theorem serve_lockstep : Refinement.Lockstep (serve cachePager) (serve residentPager) CacheServes
    (fun _ _ => True) SyncedTree BTree.resident where
  acts _ request tree serves := (tree.serve request serves).1
  keeps _ request next output tree serves acted := (tree.serve request serves).2 (next, output) acted
  allows _ _ _ _ := trivial

end Calls

/-- Every run of admitted requests gives the same answers and the same nodes as if every node stayed
in memory. -/
theorem cache_transparent (config : BtreeConfig) (free : List Rrn) (requests : List TreeRequest)
    (admitted : Refinement.Admitted (serve cachePager) CacheServes
      (CachedTree.fresh config free fun _ => false) requests) :
    (Refinement.run (serve cachePager) (CachedTree.fresh config free fun _ => false) requests).map
        (fun final => (final.1.resident, final.2)) =
      Refinement.run (serve residentPager) (allocTreeBuf config free fun _ => false) requests :=
  (serve_lockstep.run (fresh_synced config free) admitted).1

def cachedRequests : List TreeRequest := threeEntries.map insertCall ++ catalogueCalls

theorem cachedRequests_admitted : Refinement.Admitted (serve cachePager) CacheServes
    (CachedTree.fresh smallConfig [1, 2, 3] fun _ => false) cachedRequests := by
  decide +kernel

theorem cache_transparent_three :
    (Refinement.run (serve cachePager) (CachedTree.fresh smallConfig [1, 2, 3] fun _ => false)
        cachedRequests).map (fun final => (final.1.resident, final.2)) =
      Refinement.run (serve residentPager) (allocTreeBuf smallConfig [1, 2, 3] fun _ => false)
        cachedRequests :=
  cache_transparent smallConfig [1, 2, 3] cachedRequests cachedRequests_admitted

section File

variable {b : CachedTree} {config : BtreeConfig}

theorem config_pushGq (held : List NodePtr) (s : NodeCache) (p : NodePtr) :
    (NodeCache.pushGq held s p).config = s.config := by
  rw [NodeCache.pushGq]
  dsimp only
  split_ifs
  · rw [NodeCache.evict]
    split <;> rfl
  · rfl

theorem cachePager_config (config : BtreeConfig) :
    cachePager.Keeps none (fun _ => True) (NodeCache.config · = config) where
  keys _ _ _ _ := trivial
  setNode same _ _ := same
  halves same _ _ _ := same
  allocBtreeNode same _ := same
  allocated _ _ := by simp
  clearBtreeNode _ same _ := same
  loadBtreeNode wanted same _ := by
    simp only [cachePager, NodeCache.loadBtreeNode]
    split
    · exact same
    · split_ifs
      · exact same
      · split
        · exact same
        · rw [config_pushGq]
          exact same
  writeIndexRecord p same _ := by
    simp only [cachePager, NodeCache.writeIndexRecord]
    split_ifs
    · exact same
    · exact same
    · split
      · exact same
      · rw [config_pushGq]
        exact same
  getFreeRrn same := same
  insertFreeRrn _ same := same
  writeTombstone _ same := same

/-- What the process reads in the index file where `write_index_record` puts a node. -/
def NodeCache.indexed (s : NodeCache) (rrn : Rrn) : Option BtreeNode :=
  s.index (indexSlot s.config rrn)

theorem Represents.mono {nodes other : Rrn → Option BtreeNode} {height : Nat}
    {tree : Tree Rrn Key height} (represents : Represents nodes height tree)
    (more : ∀ rrn node, nodes rrn = some node → other rrn = some node) :
    Represents other height tree := by
  induction height with
  | zero => exact more _ _ represents
  | succ height ih =>
      obtain ⟨⟨next, found⟩, children⟩ := represents
      exact ⟨⟨next, more _ _ found⟩, fun child member => ih (children child member)⟩

theorem Synced.indexed {s : NodeCache} (synced : Synced [] s) (apart : SlotsApart s.config)
    (rrn : Rrn) (node : BtreeNode) (found : s.resident.nodes rrn = some node) :
    s.indexed rrn = some node := by
  obtain ⟨p, search, rfl⟩ := Option.map_eq_some_iff.mp found
  obtain ⟨member, rfl⟩ := NodeCache.searchGq_some search
  exact synced.saved apart p member List.not_mem_nil

def CachedTree.stored (b : CachedTree) : BTree Resident Rrn :=
  { b.resident with io := { b.io.resident with nodes := b.io.indexed } }

theorem SyncedTree.stored {height : Nat} {tree : Tree Rrn Key height} (synced : SyncedTree b)
    (apart : SlotsApart b.io.config) (valid : ValidBTree b.resident height tree) :
    ValidBTree (CachedTree.stored b) height tree :=
  { valid with represents := valid.represents.mono (synced.synced.indexed apart) }

theorem slotsApart (fits : ∀ rrn, toInt32 (indexOffset config rrn) = indexOffset config rrn) :
    SlotsApart config := by
  intro rrn other same
  have offsets : (indexOffset config rrn : Int) = indexOffset config other := by
    rw [← fits rrn, ← fits other]
    exact same
  have slots : rrn.toNat = other.toNat :=
    Nat.eq_of_mul_eq_mul_left (Nat.add_pos_left (by decide) _) (Int.natCast_inj.mp offsets)
  exact UInt16.toNat_inj.mp slots

theorem serve_config {next : CachedTree} {request : TreeRequest} {answer : TreeAnswer}
    (same : b.io.config = config) (tree : SyncedTree b)
    (acts : serve cachePager b request = some (next, answer)) : next.io.config = config := by
  have keeps := cachePager_config config
  cases request with
  | insert id rrn =>
      obtain ⟨status, _, shape⟩ := Option.map_eq_some_iff.mp acts
      obtain ⟨rfl, _⟩ := Prod.mk.injEq .. ▸ shape
      exact keeps.bInsert (by simp) id rrn same trivial
  | remove id =>
      obtain ⟨status, _, shape⟩ := Option.map_eq_some_iff.mp acts
      obtain ⟨rfl, _⟩ := Prod.mk.injEq .. ▸ shape
      exact (keeps.bRemove (by simp) id same).resolve_left fun root => root.2 rfl
  | search id =>
      obtain ⟨found, pos, cached, _⟩ := tree.search id
      obtain ⟨rfl, _⟩ := Prod.mk.injEq .. ▸ Option.some.inj acts
      rw [cached]
      exact same
  | range range =>
      obtain ⟨found, scanned, shape⟩ := Option.map_eq_some_iff.mp acts
      obtain ⟨rfl, _⟩ := Prod.mk.injEq .. ▸ shape
      rw [(tree.range range).2 found scanned]
      exact same

theorem serve_lockstep_dictionary (config : BtreeConfig) :
    Refinement.Lockstep (serve cachePager) (serve residentPager)
      (fun b request => CacheServes b request ∧ Serves b.resident request) Serves
      (fun b => SyncedTree b ∧ b.io.config = config) BTree.resident where
  acts _ request known serves := (known.1.serve request serves.1).1
  keeps _ request next output known serves acted :=
    ⟨(known.1.serve request serves.1).2 (next, output) acted, serve_config known.2 known.1 acted⟩
  allows _ _ _ serves := serves.2

end File

/-- After every such run of dictionary requests the index file is current: the nodes that the process
reads at the places where it wrote them form a valid B+ tree with the keys of the sorted list. -/
theorem index_file_holds_tree (config : BtreeConfig) (free : List Rrn) (requests : List TreeRequest)
    (three : 3 ≤ config.order) (bound : config.order ≤ 99)
    (fits : ∀ rrn, toInt32 (indexOffset config rrn) = indexOffset config rrn)
    (admitted : Refinement.Admitted (serve cachePager)
      (fun b request => CacheServes b request ∧ Serves b.resident request)
      (CachedTree.fresh config free fun _ => false) requests) :
    ∃ b, Refinement.run (serve cachePager) (CachedTree.fresh config free fun _ => false) requests =
        some (b, (Refinement.specRun dictionary [] requests).2) ∧
      ((b.root = none ∧ (Refinement.specRun dictionary [] requests).1 = []) ∨
        ∃ height tree, ValidBTree (CachedTree.stored b) height tree ∧
          records height tree = (Refinement.specRun dictionary [] requests).1) := by
  obtain ⟨same, reached, plain⟩ :=
    (serve_lockstep_dictionary config).run ⟨fresh_synced config free, rfl⟩ admitted
  obtain ⟨last, ran, state⟩ :=
    (serve_simulates three bound).run (DictionaryState.start config free) plain
  rw [fresh_resident, ran] at same
  obtain ⟨⟨b, answers⟩, cached, view⟩ := Option.map_eq_some_iff.mp same
  obtain ⟨rfl, rfl⟩ := Prod.mk.injEq .. ▸ view
  obtain ⟨synced, unchanged⟩ := reached b _ cached
  refine ⟨b, cached, ?_⟩
  rcases state.tree with ⟨empty, none⟩ | ⟨height, tree, held⟩
  · exact Or.inl ⟨Option.map_eq_none_iff.mp empty, none⟩
  · exact Or.inr ⟨height, tree, synced.stored (unchanged ▸ slotsApart fits) held.valid, held.records⟩

theorem index_file_holds_tree_three : ∃ b height tree,
    Refinement.run (serve cachePager) (CachedTree.fresh smallConfig [1, 2, 3] fun _ => false)
        cachedRequests =
      some (b, [.status .success, .status .success, .status .success, .status .success,
        .record (some 2), .visited [2, 3]]) ∧
    ValidBTree (CachedTree.stored b) height tree ∧
    records height tree = [⟨singleId 98, 2⟩, ⟨singleId 99, 3⟩] := by
  have fits : ∀ rrn, toInt32 (indexOffset smallConfig rrn) = indexOffset smallConfig rrn := by
    intro rrn
    have bound := rrn.toNat_lt
    have place : indexOffset smallConfig rrn = 48 * rrn.toNat := rfl
    rw [toInt32_eq_iff, place]
    omega
  have admitted := serve_lockstep.both (fresh_synced smallConfig [1, 2, 3]) cachedRequests_admitted
    catalogueCalls_admitted
  obtain ⟨b, ran, state⟩ :=
    index_file_holds_tree smallConfig [1, 2, 3] cachedRequests (by decide) (by decide) fits admitted
  have spec : Refinement.specRun dictionary [] cachedRequests =
      ([⟨singleId 98, 2⟩, ⟨singleId 99, 3⟩], [.status .success, .status .success, .status .success,
        .status .success, .record (some 2), .visited [2, 3]]) := by
    decide +kernel
  rw [spec] at ran state
  obtain ⟨height, tree, valid, keys⟩ := state.resolve_left fun empty => by
    cases empty.2
  exact ⟨b, height, tree, ran, valid, keys⟩

end Gaveta
