import Gaveta.BTree.NodeCache
import Mathlib.Data.List.Nodup
import Mathlib.Data.List.Induction

/-! What `load_btree_node` returns after any sequence of `write_index_record` calls. -/

namespace Gaveta

structure NodeWrite where
  p : NodePtr
  node : BtreeNode
  notNull : p ≠ nullPtr

namespace NodeCache

def write (s : NodeCache) (call : NodeWrite) : NodeCache :=
  (writeIndexRecord [] (s.setNode call.p call.node) call.p).1

def writeAll (s : NodeCache) (calls : List NodeWrite) : NodeCache := calls.foldl write s

end NodeCache

def lastWritten (calls : List NodeWrite) (rrn : Rrn) : Option BtreeNode :=
  calls.foldl (fun last call => if call.node.rrn = rrn then some call.node else last) none

def ReadsBack (calls : List NodeWrite) (s : NodeCache) : Prop :=
  ∀ rrn node, lastWritten calls rrn = some node →
    ∃ bn, (s.loadBtreeNode [] rrn).2 = some bn ∧ (s.loadBtreeNode [] rrn).1.memory bn = some node

/-- The object is not in the cache under another record number, no other object with other content
is there under its own, and a node that is new to the cache does not fill it. -/
structure KeepsCache (s : NodeCache) (call : NodeWrite) : Prop where
  own : ∀ p ∈ s.gq, p = call.p → (s.node p).rrn = call.node.rrn
  same : ∀ p ∈ s.gq, (s.node p).rrn = call.node.rrn → p = call.p ∨ s.node p = call.node
  room : (∀ p ∈ s.gq, (s.node p).rrn ≠ call.node.rrn) → s.cacheSize + 1 < cacheCapacity

structure Holds (calls : List NodeWrite) (s : NodeCache) : Prop where
  current : ∀ rrn node, lastWritten calls rrn = some node ↔
    node.rrn = rrn ∧ ∃ p ∈ s.gq, s.node p = node
  live : ∀ p ∈ s.gq, (s.memory p).isSome
  notNull : nullPtr ∉ s.gq
  distinct : (s.gq.map fun p => (s.node p).rrn).Nodup
  size : s.cacheSize = s.gq.length
  works : ∀ n, s.ioFails n = false

theorem lastWritten_append (calls : List NodeWrite) (call : NodeWrite) (rrn : Rrn) :
    lastWritten (calls ++ [call]) rrn =
      if call.node.rrn = rrn then some call.node else lastWritten calls rrn := by
  rw [lastWritten, List.foldl_append]
  rfl

section Step

variable {calls : List NodeWrite} {call : NodeWrite} {s : NodeCache}

theorem Holds.search (holds : Holds calls s) {p : NodePtr} (member : p ∈ s.gq) :
    s.searchGq (s.node p).rrn = some p := by
  obtain ⟨found, search⟩ := Option.isSome_iff_exists.mp (s.searchGq_isSome member)
  obtain ⟨inside, same⟩ := NodeCache.searchGq_some search
  rw [search, List.inj_on_of_nodup_map holds.distinct inside member same]

theorem loadBtreeNode_found {rrn : Rrn} {p : NodePtr} {held : List NodePtr}
    (found : s.searchGq rrn = some p) (notNull : p ≠ nullPtr) :
    s.loadBtreeNode held rrn = (s, some p) := by
  rw [NodeCache.loadBtreeNode, found]
  simp [notNull]

theorem Holds.readsBack (holds : Holds calls s) : ReadsBack calls s := by
  intro rrn node written
  obtain ⟨rfl, p, member, rfl⟩ := (holds.current rrn node).mp written
  have notNull : p ≠ nullPtr := fun null => holds.notNull (null ▸ member)
  obtain ⟨stored, present⟩ := Option.isSome_iff_exists.mp (holds.live p member)
  rw [loadBtreeNode_found (holds.search member) notNull]
  refine ⟨p, rfl, ?_⟩
  rw [present, NodeCache.node, present]
  rfl

def placed (s : NodeCache) (call : NodeWrite) : NodeCache :=
  (s.setNode call.p call.node).wrote call.p

theorem placed_node (p : NodePtr) :
    (placed s call).node p = if p = call.p then call.node else s.node p := by
  simp [placed]

theorem write_cached {p : NodePtr} (works : ∀ n, s.ioFails n = false) (member : p ∈ s.gq)
    (same : ((placed s call).node p).rrn = call.node.rrn) : s.write call = placed s call := by
  have found : ((placed s call).searchGq call.node.rrn).isSome := by
    rw [← same]
    exact NodeCache.searchGq_isSome member
  obtain ⟨first, found⟩ := Option.isSome_iff_exists.mp found
  rw [placed] at found
  simp [NodeCache.write, NodeCache.writeIndexRecord, call.notNull, works, found, placed]

theorem write_new (works : ∀ n, s.ioFails n = false)
    (absent : ∀ p ∈ s.gq, ((placed s call).node p).rrn ≠ call.node.rrn) :
    s.write call = NodeCache.pushGq [] (placed s call) call.p := by
  have found : (placed s call).searchGq call.node.rrn = none :=
    NodeCache.searchGq_eq_none_iff.mpr absent
  rw [placed] at found
  simp [NodeCache.write, NodeCache.writeIndexRecord, call.notNull, works, found, placed]

theorem lastWritten_step {after : NodeCache} {holder : NodePtr} (holds : Holds calls s)
    (own : ∀ p ∈ s.gq, p = call.p → (s.node p).rrn = call.node.rrn)
    (nodes : ∀ p, after.node p = if p = call.p then call.node else s.node p)
    (gq : ∀ p, p ∈ after.gq ↔ p ∈ s.gq ∨ p = holder) (content : after.node holder = call.node)
    (distinct : (after.gq.map fun p => (after.node p).rrn).Nodup) (rrn : Rrn) (node : BtreeNode) :
    lastWritten (calls ++ [call]) rrn = some node ↔
      node.rrn = rrn ∧ ∃ p ∈ after.gq, after.node p = node := by
  have held : holder ∈ after.gq := (gq holder).mpr (Or.inr rfl)
  rw [lastWritten_append]
  split_ifs with same
  · constructor
    · intro written
      cases written
      exact ⟨same, holder, held, content⟩
    · rintro ⟨rfl, p, member, rfl⟩
      have equal : p = holder := List.inj_on_of_nodup_map distinct member held (by
        rw [content]
        exact same.symm)
      rw [equal, content]
  · rw [holds.current]
    refine and_congr_right fun named => ?_
    constructor
    · rintro ⟨p, member, rfl⟩
      have other : p ≠ call.p := fun here => same ((own p member here).symm.trans named)
      exact ⟨p, (gq p).mpr (Or.inl member), by rw [nodes, if_neg other]⟩
    · rintro ⟨p, member, rfl⟩
      have other : p ≠ call.p := by
        rintro rfl
        rw [nodes, if_pos rfl] at named
        exact same named
      have outside : p ≠ holder := by
        rintro rfl
        rw [content] at named
        exact same named
      exact ⟨p, ((gq p).mp member).resolve_right outside, by rw [nodes, if_neg other]⟩

theorem placed_rrn (own : ∀ p ∈ s.gq, p = call.p → (s.node p).rrn = call.node.rrn) {p : NodePtr}
    (member : p ∈ s.gq) : ((placed s call).node p).rrn = (s.node p).rrn := by
  rw [placed_node]
  split_ifs with here
  · exact (own p member here).symm
  · rfl

theorem placed_live {p : NodePtr} (live : (s.memory p).isSome) :
    ((placed s call).memory p).isSome := by
  by_cases here : p = call.p
  · simp [placed, here]
  · simpa [placed, here] using live

theorem Holds.cached (holds : Holds calls s) (keeps : KeepsCache s call) {p : NodePtr}
    (member : p ∈ s.gq) (same : (s.node p).rrn = call.node.rrn) :
    Holds (calls ++ [call]) (s.write call) := by
  have rrns : (placed s call).gq.map (fun p => ((placed s call).node p).rrn) =
      s.gq.map fun p => (s.node p).rrn :=
    List.map_congr_left fun p member => placed_rrn keeps.own member
  have distinct := holds.distinct
  rw [← rrns] at distinct
  have content : (placed s call).node p = call.node := by
    rw [placed_node]
    split_ifs with here
    · rfl
    · exact (keeps.same p member same).resolve_left here
  rw [write_cached holds.works member (by rw [content])]
  constructor
  · exact lastWritten_step holds keeps.own (fun p => placed_node p)
      (fun q => ⟨Or.inl, fun either => either.elim id fun equal => equal ▸ member⟩) content distinct
  · exact fun q inside => placed_live (holds.live q inside)
  · exact holds.notNull
  · exact distinct
  · exact holds.size
  · exact holds.works

theorem Holds.fresh (holds : Holds calls s) (keeps : KeepsCache s call)
    (absent : ∀ p ∈ s.gq, (s.node p).rrn ≠ call.node.rrn) :
    Holds (calls ++ [call]) (s.write call) := by
  have outside : call.p ∉ s.gq := fun member =>
    absent call.p member (keeps.own call.p member rfl)
  have rrns : s.gq.map (fun p => ((placed s call).node p).rrn) =
      s.gq.map fun p => (s.node p).rrn :=
    List.map_congr_left fun p member => placed_rrn keeps.own member
  have content : (placed s call).node call.p = call.node := by rw [placed_node, if_pos rfl]
  have room : (placed s call).cacheSize + 1 < cacheCapacity := keeps.room absent
  have distinct : ((s.gq ++ [call.p]).map fun p => ((placed s call).node p).rrn).Nodup := by
    rw [List.map_append, rrns, List.map_singleton, content, ← List.concat_eq_append,
      List.nodup_concat]
    refine ⟨fun member => ?_, holds.distinct⟩
    obtain ⟨p, inside, same⟩ := List.mem_map.mp member
    exact absent p inside same
  rw [write_new holds.works fun p member => by rw [placed_rrn keeps.own member]; exact absent p member,
    NodeCache.pushGq_room room]
  constructor
  · exact lastWritten_step holds keeps.own (fun p => placed_node p)
      (fun q => by simp [placed]) content distinct
  · intro q inside
    rcases List.mem_append.mp inside with old | new
    · exact placed_live (holds.live q old)
    · rw [List.mem_singleton.mp new]
      simp [placed]
  · intro null
    rcases List.mem_append.mp null with old | new
    · exact holds.notNull old
    · exact call.notNull (List.mem_singleton.mp new).symm
  · exact distinct
  · simp [placed, holds.size]
  · exact holds.works

theorem Holds.step (holds : Holds calls s) (keeps : KeepsCache s call) :
    Holds (calls ++ [call]) (s.write call) := by
  by_cases cached : ∃ p ∈ s.gq, (s.node p).rrn = call.node.rrn
  · obtain ⟨p, member, same⟩ := cached
    exact holds.cached keeps member same
  · exact holds.fresh keeps fun p member same => cached ⟨p, member, same⟩

theorem ReadsBack.member (reads : ReadsBack calls s) (notNull : nullPtr ∉ s.gq) {rrn : Rrn}
    {node : BtreeNode} (written : lastWritten calls rrn = some node) :
    ∃ p ∈ s.gq, s.memory p = some node ∧ s.node p = node := by
  obtain ⟨bn, loaded, content⟩ := reads rrn node written
  cases found : s.searchGq rrn with
  | none => simp [NodeCache.loadBtreeNode, found] at loaded
  | some p =>
      have member := (NodeCache.searchGq_some found).1
      rw [loadBtreeNode_found found fun null => notNull (null ▸ member)] at loaded content
      cases loaded
      exact ⟨bn, member, content, by rw [NodeCache.node, content]; rfl⟩

theorem Holds.unique (holds : Holds calls s) {left right : NodePtr} (leftMember : left ∈ s.gq)
    (rightMember : right ∈ s.gq) (same : (s.node left).rrn = (s.node right).rrn) : left = right :=
  List.inj_on_of_nodup_map holds.distinct leftMember rightMember same

theorem Holds.own_of_readsBack (holds : Holds calls s)
    (reads : ReadsBack (calls ++ [call]) (s.write call)) (member : call.p ∈ s.gq) :
    (s.node call.p).rrn = call.node.rrn := by
  by_contra different
  have overwritten : (placed s call).node call.p = call.node := by rw [placed_node, if_pos rfl]
  have written : lastWritten (calls ++ [call]) (s.node call.p).rrn = some (s.node call.p) := by
    rw [lastWritten_append, if_neg fun same => different same.symm]
    exact (holds.current _ _).mpr ⟨rfl, call.p, member, rfl⟩
  rw [write_cached holds.works member (by rw [overwritten])] at reads
  obtain ⟨p, inside, _, content⟩ := reads.member holds.notNull written
  rw [placed_node] at content
  split_ifs at content with here
  · exact different (by rw [content])
  · exact here (holds.unique inside member (by rw [content]))

theorem Holds.same_of_readsBack (holds : Holds calls s)
    (own : ∀ p ∈ s.gq, p = call.p → (s.node p).rrn = call.node.rrn)
    (reads : ReadsBack (calls ++ [call]) (s.write call)) {p : NodePtr} (member : p ∈ s.gq)
    (same : (s.node p).rrn = call.node.rrn) (other : p ≠ call.p) : s.node p = call.node := by
  have kept : (placed s call).node p = s.node p := by rw [placed_node, if_neg other]
  have written : lastWritten (calls ++ [call]) call.node.rrn = some call.node := by
    rw [lastWritten_append, if_pos rfl]
  rw [write_cached holds.works member (by rw [kept, same])] at reads
  obtain ⟨q, inside, _, content⟩ := reads.member holds.notNull written
  have equal : q = p := by
    refine holds.unique inside member ?_
    rw [← placed_rrn own inside, content, same]
  rw [← kept, ← equal, content]

theorem Holds.room_of_readsBack (holds : Holds calls s)
    (own : ∀ p ∈ s.gq, p = call.p → (s.node p).rrn = call.node.rrn)
    (reads : ReadsBack (calls ++ [call]) (s.write call))
    (absent : ∀ p ∈ s.gq, (s.node p).rrn ≠ call.node.rrn) : s.cacheSize + 1 < cacheCapacity := by
  by_contra full
  rw [not_lt] at full
  have outside : call.p ∉ s.gq := fun member => absent call.p member (own call.p member rfl)
  cases queue : s.gq with
  | nil => simp [holds.size, queue, cacheCapacity] at full
  | cons old rest =>
      have member : old ∈ s.gq := by simp [queue]
      have written : lastWritten (calls ++ [call]) (s.node old).rrn = some (s.node old) := by
        rw [lastWritten_append, if_neg fun same => absent old member same.symm]
        exact (holds.current _ _).mpr ⟨rfl, old, member, rfl⟩
      have oldest : (placed s call).gq = old :: rest := queue
      have filled : cacheCapacity ≤ (placed s call).cacheSize + 1 := full
      rw [write_new holds.works fun p inside => by
        rw [placed_rrn own inside]; exact absent p inside,
        NodeCache.pushGq_full filled oldest] at reads
      obtain ⟨p, inside, present, _⟩ := reads.member (by
        intro null
        rcases List.mem_append.mp null with back | new
        · exact holds.notNull (by rw [queue]; exact List.mem_cons_of_mem _ back)
        · exact call.notNull (List.mem_singleton.mp new).symm) written
      have alive : p ≠ old := by
        rintro rfl
        simp at present
      have content : (placed s call).node p = s.node old := by
        simp only [NodeCache.clearBtreeNode_memory, ne_eq, alive, not_false_eq_true,
          Function.update_of_ne] at present
        rw [NodeCache.node, present]
        rfl
      rw [placed_node] at content
      split_ifs at content with here
      · exact absent old member (by rw [content])
      · have back : p ∈ s.gq := by
          rw [queue]
          exact List.mem_cons_of_mem _ ((List.mem_append.mp inside).resolve_right fun new =>
            here (List.mem_singleton.mp new))
        exact alive (holds.unique back member (by rw [content]))

theorem Holds.keeps_iff (holds : Holds calls s) :
    ReadsBack (calls ++ [call]) (s.write call) ↔ KeepsCache s call := by
  constructor
  · intro reads
    have own : ∀ p ∈ s.gq, p = call.p → (s.node p).rrn = call.node.rrn := by
      rintro p member rfl
      exact holds.own_of_readsBack reads member
    refine ⟨own, fun p member same => ?_, holds.room_of_readsBack own reads⟩
    by_cases here : p = call.p
    · exact Or.inl here
    · exact Or.inr (holds.same_of_readsBack own reads member same here)
  · exact fun keeps => (holds.step keeps).readsBack

end Step

section Run

variable {s : NodeCache} {calls : List NodeWrite}

theorem writeAll_append (s : NodeCache) (calls : List NodeWrite) (call : NodeWrite) :
    s.writeAll (calls ++ [call]) = (s.writeAll calls).write call := by
  rw [NodeCache.writeAll, List.foldl_append]
  rfl

theorem Holds.run (start : Holds [] s)
    (keeps : ∀ done call, done ++ [call] <+: calls → KeepsCache (s.writeAll done) call) :
    Holds calls (s.writeAll calls) := by
  induction calls using List.reverseRecOn with
  | nil => exact start
  | append_singleton calls call ih =>
      have earlier := ih fun done other inside =>
        keeps done other (inside.trans (List.prefix_append calls [call]))
      rw [writeAll_append]
      exact earlier.step (keeps calls call (List.prefix_refl _))

theorem Holds.run_iff (start : Holds [] s) :
    (∀ done, done <+: calls → ReadsBack done (s.writeAll done)) ↔
      ∀ done call, done ++ [call] <+: calls → KeepsCache (s.writeAll done) call := by
  constructor
  · intro reads
    induction calls using List.reverseRecOn with
    | nil => simp
    | append_singleton calls call ih =>
        have earlier := ih fun done inside =>
          reads done (inside.trans (List.prefix_append calls [call]))
        intro done other inside
        rcases List.prefix_concat_iff.mp inside with whole | before
        · obtain ⟨rfl, same⟩ := List.append_inj' whole rfl
          rw [List.singleton_inj.mp same, ← (start.run earlier).keeps_iff, ← writeAll_append]
          exact reads _ (List.prefix_refl _)
        · exact earlier done other before
  · intro keeps done inside
    exact (start.run fun before call member => keeps before call (member.trans inside)).readsBack

theorem holds_init (config : BtreeConfig) (free : List Rrn) :
    Holds [] (initCache config free fun _ => false) := by
  constructor <;> simp [initCache, lastWritten, nullPtr]

end Run

/-- After every call of every sequence the most recent contents load, exactly if every call meets
the condition. -/
theorem reads_back_iff (config : BtreeConfig) (free : List Rrn) (calls : List NodeWrite) :
    let s := initCache config free fun _ => false
    (∀ done, done <+: calls → ReadsBack done (s.writeAll done)) ↔
      ∀ done call, done ++ [call] <+: calls → KeepsCache (s.writeAll done) call :=
  (holds_init config free).run_iff

def rewrites : List NodeWrite :=
  [{ p := 1, notNull := by decide,
     node := { keys := [], rrn := 7, children := [], nextLeaf := noRrn, leaf := true } },
   { p := 2, notNull := by decide,
     node := { keys := [], rrn := 7, children := [], nextLeaf := 9, leaf := true } }]

/-- A record number that is written again from another object loads with its old content. -/
theorem rewrite_reads_stale :
    lastWritten rewrites 7 =
      some { keys := [], rrn := 7, children := [], nextLeaf := 9, leaf := true } ∧
    ¬ReadsBack rewrites ((initCache { schemaSize := 16, order := 3, rootRrn := 0, headerSize := 0 } []
      fun _ => false).writeAll rewrites) := by
  refine ⟨rfl, fun reads => ?_⟩
  obtain ⟨bn, loaded, content⟩ := reads 7 _ rfl
  have found : bn = 1 := Option.some.inj (loaded.symm.trans (by decide +kernel))
  subst found
  exact absurd content (by decide +kernel)

end Gaveta
