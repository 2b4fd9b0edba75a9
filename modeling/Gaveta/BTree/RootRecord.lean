import Gaveta.BTree.InsertRun
import Gaveta.BTree.Keeps
import Gaveta.BTree.NodeCache

/-! The copy of the root's record number in the configuration, over the life of a tree. -/

namespace Gaveta

/-- A call of `b_insert`, with the key that `populate_key` makes, or of `b_remove`. -/
inductive TreeCall where
  | insert (key : Key)
  | remove (id : CString)

abbrev CachedTree := BTree NodeCache NodePtr

namespace CachedTree

def call (b : CachedTree) : TreeCall → Option CachedTree
  | .insert key =>
      let inserted := bInsert cachePager b key.id key.dataRegisterRrn
      inserted.2.map fun _ => inserted.1
  | .remove id => some (bRemove cachePager b id).1

def passes : CachedTree → List TreeCall → List CachedTree
  | b, [] => [b]
  | b, next :: rest =>
      b ::
        match b.call next with
        | none => []
        | some after => passes after rest

def run : CachedTree → List TreeCall → Option CachedTree
  | b, [] => some b
  | b, next :: rest =>
      match b.call next with
      | none => none
      | some after => run after rest

def EachCall (holds : CachedTree → TreeCall → Prop) : CachedTree → List TreeCall → Prop
  | _, [] => True
  | b, next :: rest =>
      holds b next ∧ ∀ after, b.call next = some after → EachCall holds after rest

def fresh (config : BtreeConfig) (free : List Rrn) (ioFails : Nat → Bool) : CachedTree :=
  { root := none, config := config, io := initCache config free ioFails }

/-- The end of `create_btree_from_file`. -/
def reloadRoot (b : CachedTree) : CachedTree :=
  let loaded := cachePager.loadBtreeNode [] b.io b.config.rootRrn
  { b with
    root := loaded.2
    io :=
      match loaded.2 with
      | some _ => loaded.1
      | none => cachePager.insertFreeRrn loaded.1 0 }

/-- The trees in the life of a tree that is built from the keys `built`. -/
def lifetime (start : CachedTree) (built : List Key) (calls : List TreeCall) : List CachedTree :=
  start.passes (built.map .insert) ++
    match start.run (built.map .insert) with
    | none => []
    | some b => b.reloadRoot.passes calls

def RootAgrees (b : CachedTree) : Prop :=
  ∀ root, b.root = some root →
    root ∉ b.io.usedReleased ∧ (b.io.node root).rrn = b.config.rootRrn

def ReloadsRoot (start : CachedTree) (built : List Key) : Prop :=
  built ≠ [] → ∀ b, start.run (built.map .insert) = some b → b.reloadRoot.root = b.root

def DrawsRootRrn (b : CachedTree) : TreeCall → Prop
  | .insert _ => b.root = none → (getFreeRrn b.io.freeRrn).1 = b.config.rootRrn
  | .remove _ => True

def RootSpared (b : CachedTree) : Prop := ∀ root, b.root = some root → root ∉ b.io.usedReleased

/-- A first insertion draws the recorded number, and no eviction has released the root when the call
ends. -/
structure KeepsRecord (b : CachedTree) (next : TreeCall) : Prop where
  draws : b.DrawsRootRrn next
  spares : ∀ after, b.call next = some after → after.RootSpared

/-- The cache holds the root, and no older node in it has the root's number. -/
def RootFirst (b : CachedTree) : Prop :=
  ∃ root older newer, b.root = some root ∧ b.io.gq = older ++ root :: newer ∧
    ∀ p ∈ older, (b.io.node p).rrn ≠ (b.io.node root).rrn

end CachedTree

/-- An allocated root that has the record number `rrn` unless an eviction has released it. -/
structure Named (root : NodePtr) (rrn : Rrn) (s : NodeCache) : Prop where
  notNull : root ≠ nullPtr
  old : root < s.unused
  rrn : root ∉ s.usedReleased → (s.node root).rrn = rrn

namespace Named

variable {root : NodePtr} {rrn : Rrn} {s : NodeCache}

theorem setNode {p : NodePtr} {node : BtreeNode} (named : Named root rrn s)
    (same : root = p → node.rrn = (s.node root).rrn) : Named root rrn (s.setNode p node) := by
  refine ⟨named.notNull, named.old, fun unreleased => ?_⟩
  rw [NodeCache.node_setNode]
  split_ifs with here
  · rw [same here]
    exact named.rrn unreleased
  · exact named.rrn unreleased

theorem node_allocBtreeNode (named : Named root rrn s) (node : BtreeNode) :
    (s.allocBtreeNode node).node root = s.node root := by
  rw [NodeCache.node_allocBtreeNode, if_neg (Nat.ne_of_lt named.old)]

theorem allocBtreeNode (named : Named root rrn s) (node : BtreeNode) :
    Named root rrn (s.allocBtreeNode node) := by
  refine ⟨named.notNull, Nat.lt_succ_of_lt named.old, fun unreleased => ?_⟩
  rw [named.node_allocBtreeNode]
  exact named.rrn unreleased

theorem clearBtreeNode {p : NodePtr} (named : Named root rrn s) (other : root ≠ p) :
    Named root rrn (s.clearBtreeNode p) := by
  refine ⟨named.notNull, named.old, fun unreleased => ?_⟩
  rw [NodeCache.node_clearBtreeNode s p root other]
  exact named.rrn unreleased

theorem pushGq {held : List NodePtr} {p : NodePtr} (named : Named root rrn s)
    (inUse : root ∈ held) : Named root rrn (NodeCache.pushGq held s p) := by
  rw [NodeCache.pushGq]
  dsimp only
  split_ifs
  · rw [NodeCache.evict]
    split
    · exact ⟨named.notNull, named.old, named.rrn⟩
    · rename_i old rest _
      refine ⟨named.notNull, named.old, fun unreleased => ?_⟩
      by_cases same : old = root
      · subst same
        simp [inUse] at unreleased
      · have kept : root ∉ s.usedReleased := by
          intro member
          refine unreleased ?_
          dsimp only
          split_ifs
          · exact List.mem_append_left _ member
          · exact member
        exact (named.clearBtreeNode (Ne.symm same)).rrn kept
  · exact ⟨named.notNull, named.old, named.rrn⟩

theorem loadBtreeNode {held : List NodePtr} (named : Named root rrn s) (inUse : root ∈ held)
    (wanted : Rrn) : Named root rrn (s.loadBtreeNode held wanted).1 := by
  rw [NodeCache.loadBtreeNode]
  split
  · exact named
  · split_ifs
    · exact named
    · split
      · exact named
      · exact (named.allocBtreeNode _).pushGq inUse

theorem writeIndexRecord {held : List NodePtr} (named : Named root rrn s) (inUse : root ∈ held)
    (p : NodePtr) : Named root rrn (s.writeIndexRecord held p).1 := by
  have wrote : Named root rrn (s.wrote p) := ⟨named.notNull, named.old, named.rrn⟩
  rw [NodeCache.writeIndexRecord]
  split_ifs
  · exact named
  · exact ⟨named.notNull, named.old, named.rrn⟩
  · split
    · exact wrote
    · exact wrote.pushGq inUse

end Named

theorem cachePager_named (root : NodePtr) (rrn : Rrn) :
    cachePager.Keeps (some root) (fun _ => True) (Named root rrn) where
  keys _ _ _ _ := trivial
  setNode named same _ := named.setNode fun here => here ▸ same
  halves named same _ _ := by
    refine (named.allocBtreeNode _).setNode fun here => ?_
    rw [named.node_allocBtreeNode, here]
    exact same
  allocBtreeNode named _ := named.allocBtreeNode _
  allocated named _ same := Nat.ne_of_lt named.old (Option.some.inj same)
  clearBtreeNode p named other := named.clearBtreeNode fun same => other (congrArg some same)
  loadBtreeNode wanted named inUse := named.loadBtreeNode (inUse root rfl) wanted
  writeIndexRecord p named inUse := named.writeIndexRecord (inUse root rfl) p
  getFreeRrn named := ⟨named.notNull, named.old, named.rrn⟩
  insertFreeRrn _ named := ⟨named.notNull, named.old, named.rrn⟩
  writeTombstone _ named := ⟨named.notNull, named.old, named.rrn⟩

theorem unused_pushGq (held : List NodePtr) (s : NodeCache) (p : NodePtr) :
    (NodeCache.pushGq held s p).unused = s.unused := by
  rw [NodeCache.pushGq]
  dsimp only
  split_ifs
  · rw [NodeCache.evict]
    split <;> rfl
  · rfl

theorem cachePager_above : cachePager.Keeps none (fun _ => True) (nullPtr < ·.unused) where
  keys _ _ _ _ := trivial
  setNode above _ _ := above
  halves above _ _ _ := Nat.lt_succ_of_lt above
  allocBtreeNode above _ := Nat.lt_succ_of_lt above
  allocated _ _ := by simp
  clearBtreeNode _ above _ := above
  loadBtreeNode wanted above _ := by
    simp only [cachePager, NodeCache.loadBtreeNode]
    split
    · exact above
    · split_ifs
      · exact above
      · split
        · exact above
        · rw [unused_pushGq]
          exact Nat.lt_succ_of_lt above
  writeIndexRecord p above _ := by
    simp only [cachePager, NodeCache.writeIndexRecord]
    split_ifs
    · exact above
    · exact above
    · split
      · exact above
      · rw [unused_pushGq]
        exact above
  getFreeRrn above := above
  insertFreeRrn _ above := above
  writeTombstone _ above := above

namespace CachedTree

structure Recorded (b : CachedTree) : Prop where
  above : nullPtr < b.io.unused
  named : ∀ root, b.root = some root → Named root b.config.rootRrn b.io
  spared : b.RootSpared

theorem Recorded.agrees {b : CachedTree} (recorded : b.Recorded) : b.RootAgrees :=
  fun root found =>
    ⟨recorded.spared root found, (recorded.named root found).rrn (recorded.spared root found)⟩

theorem named_new {s : NodeCache} {held : List NodePtr} (above : nullPtr < s.unused)
    (node : BtreeNode) (inUse : s.unused ∈ held) :
    Named s.unused node.rrn ((s.allocBtreeNode node).writeIndexRecord held s.unused).1 := by
  refine Named.writeIndexRecord ?_ inUse s.unused
  exact ⟨Nat.ne_of_gt above, Nat.lt_succ_self _, fun _ => by simp⟩

theorem createRoot_named {b : CachedTree} (above : nullPtr < b.io.unused) (k : Key) :
    (createRoot cachePager b k).1.config = b.config ∧
      ∃ root, (createRoot cachePager b k).1.root = some root ∧
        Named root (getFreeRrn b.io.freeRrn).1 (createRoot cachePager b k).1.io :=
  ⟨rfl, b.io.unused, rfl, @named_new (cachePager.getFreeRrn b.io).1 _ above
    { keys := [k], rrn := (getFreeRrn b.io.freeRrn).1, children := [], nextLeaf := noRrn,
      leaf := true } (by simp [cachePager])⟩

theorem growRoot_named {b : CachedTree} {root rChild : NodePtr} {s : NodeCache} {promoKey : Key}
    {status : BtreeStatus} (above : nullPtr < s.unused)
    (grown : (growRoot cachePager b root s promoKey rChild).2 = some status) :
    ∃ new, (growRoot cachePager b root s promoKey rChild).1.root = some new ∧
      Named new (growRoot cachePager b root s promoKey rChild).1.config.rootRrn
        (growRoot cachePager b root s promoKey rChild).1.io := by
  have named := fun node held (inUse : s.unused ∈ held) =>
    @named_new (cachePager.getFreeRrn s).1 held above node inUse
  rw [growRoot] at grown ⊢
  dsimp only at grown ⊢
  split_ifs at grown ⊢
  exact ⟨s.unused, rfl, named
    { keys := [promoKey], rrn := (getFreeRrn s.freeRrn).1, children := _, nextLeaf := noRrn,
      leaf := false } _ (by simp [cachePager])⟩

theorem finishInsert_named {b : CachedTree} {root : NodePtr}
    {inserted : InsertResult NodeCache NodePtr} {status : BtreeStatus} (found : b.root = some root)
    (named : Named root b.config.rootRrn inserted.1)
    (returned : (finishInsert cachePager b root inserted).2 = some status) :
    ∃ top, (finishInsert cachePager b root inserted).1.root = some top ∧
      Named top (finishInsert cachePager b root inserted).1.config.rootRrn
        (finishInsert cachePager b root inserted).1.io := by
  rw [finishInsert] at returned ⊢
  split at returned
  · exact ⟨root, found, named⟩
  · split_ifs at returned ⊢ with promoted
    · exact growRoot_named (Nat.lt_of_le_of_lt (Nat.zero_le _) named.old) returned
    · exact ⟨root, found, named⟩

theorem bInsert_named {b : CachedTree} {key : Key} {status : BtreeStatus} (recorded : b.Recorded)
    (returned : (bInsert cachePager b key.id key.dataRegisterRrn).2 = some status) :
    ∃ top, (bInsert cachePager b key.id key.dataRegisterRrn).1.root = some top ∧
      (b.root = none →
        (bInsert cachePager b key.id key.dataRegisterRrn).1.config = b.config ∧
        Named top (getFreeRrn b.io.freeRrn).1
          (bInsert cachePager b key.id key.dataRegisterRrn).1.io) ∧
      (b.root ≠ none →
        Named top (bInsert cachePager b key.id key.dataRegisterRrn).1.config.rootRrn
          (bInsert cachePager b key.id key.dataRegisterRrn).1.io) := by
  cases found : b.root with
  | none =>
      obtain ⟨config, top, rooted, named⟩ := createRoot_named recorded.above key
      rw [bInsert, found]
      exact ⟨top, rooted, fun _ => ⟨config, named⟩, fun some => absurd rfl some⟩
  | some root =>
      have keeps := cachePager_named root b.config.rootRrn
      have inserted : Pager.Keeps.Inserted (Named root b.config.rootRrn) (fun _ => True)
          (insertKey cachePager b.config.order b.root depthLimit [] b.io root
            { id := key.id, dataRegisterRrn := key.dataRegisterRrn } false) :=
        keeps.insertKey _ (fun q used => found.trans used) _ _ (recorded.named root found) trivial
          (by simp)
      rw [bInsert, found] at returned ⊢
      rw [found] at inserted
      obtain ⟨top, rooted, named⟩ := finishInsert_named found inserted.state returned
      exact ⟨top, rooted, fun none => (by cases none), fun _ => named⟩

theorem bRemove_config (b : CachedTree) (id : CString) :
    (bRemove cachePager b id).1.config = b.config ∧
      ((bRemove cachePager b id).1.root = b.root ∨ (bRemove cachePager b id).1.root = none) := by
  have searched : (bSearch cachePager b id).1.config = b.config ∧
      (bSearch cachePager b id).1.root = b.root := by
    rw [bSearch]
    split
    · exact ⟨rfl, rfl⟩
    · dsimp only
      split
      · exact ⟨rfl, rfl⟩
      · split_ifs <;> exact ⟨rfl, rfl⟩
  rw [bRemove]
  split
  · exact ⟨rfl, Or.inl rfl⟩
  · dsimp only
    split
    · exact ⟨searched.1, Or.inl searched.2⟩
    · split
      · exact ⟨searched.1, Or.inl searched.2⟩
      · split_ifs
        all_goals first
          | exact ⟨searched.1, Or.inl searched.2⟩
          | exact ⟨rfl, Or.inl rfl⟩
          | exact ⟨rfl, Or.inr rfl⟩

theorem bRemove_named {b : CachedTree} (recorded : b.Recorded) (id : CString) :
    nullPtr < (bRemove cachePager b id).1.io.unused ∧
      ∀ root, (bRemove cachePager b id).1.root = some root →
        Named root (bRemove cachePager b id).1.config.rootRrn (bRemove cachePager b id).1.io := by
  have above := cachePager_above.bRemove (b := b) (by simp) id recorded.above
  obtain ⟨config, same | empty⟩ := bRemove_config b id
  · refine ⟨above.resolve_left fun released => released.2 rfl, fun root found => ?_⟩
    rw [config]
    rw [same] at found
    have kept := (cachePager_named root b.config.rootRrn).bRemove (b := b)
      (fun q used => found.trans used) id (recorded.named root found)
    refine kept.resolve_left fun released => ?_
    rw [same, found] at released
    cases released.1
  · refine ⟨above.resolve_left fun released => released.2 rfl, fun root found => ?_⟩
    rw [empty] at found
    cases found

theorem Recorded.call {b after : CachedTree} {next : TreeCall} (recorded : b.Recorded)
    (keeps : b.KeepsRecord next) (called : b.call next = some after) : after.Recorded := by
  have spared := keeps.spares after called
  cases next with
  | remove id =>
      cases called
      obtain ⟨above, named⟩ := bRemove_named recorded id
      exact ⟨above, named, spared⟩
  | insert key =>
      obtain ⟨status, returned, rfl⟩ := Option.map_eq_some_iff.mp called
      have above := cachePager_above.bInsert (b := b) (by simp) key.id key.dataRegisterRrn
        recorded.above trivial
      obtain ⟨top, rooted, first, later⟩ := bInsert_named recorded returned
      refine ⟨above, fun root found => ?_, spared⟩
      cases rooted.symm.trans found
      by_cases empty : b.root = none
      · obtain ⟨config, named⟩ := first empty
        rw [config, ← keeps.draws empty]
        exact named
      · exact later empty

theorem Recorded.draws {b after : CachedTree} {next : TreeCall} (recorded : b.Recorded)
    (called : b.call next = some after) (agrees : after.RootAgrees) : b.DrawsRootRrn next := by
  cases next with
  | remove id => trivial
  | insert key =>
      intro empty
      obtain ⟨status, returned, rfl⟩ := Option.map_eq_some_iff.mp called
      obtain ⟨top, rooted, first, _⟩ := bInsert_named recorded returned
      obtain ⟨config, named⟩ := first empty
      obtain ⟨spared, same⟩ := agrees top rooted
      rw [← named.rrn spared, same, config]

theorem passes_head (b : CachedTree) (calls : List TreeCall) : b ∈ b.passes calls := by
  cases calls <;> simp [passes]

theorem Recorded.run {b : CachedTree} {calls : List TreeCall} (recorded : b.Recorded)
    (keeps : b.EachCall KeepsRecord calls) :
    (∀ passed ∈ b.passes calls, passed.Recorded) ∧
      ∀ after, b.run calls = some after → after.Recorded := by
  induction calls generalizing b with
  | nil =>
      refine ⟨fun passed member => ?_, fun after ended => ?_⟩
      · rwa [List.mem_singleton.mp member]
      · cases ended
        exact recorded
  | cons next rest ih =>
      cases called : b.call next with
      | none =>
          refine ⟨fun passed member => ?_, fun after ended => ?_⟩
          · simp only [passes, called, List.mem_singleton] at member
            rwa [member]
          · simp [CachedTree.run, called] at ended
      | some after =>
          obtain ⟨passes, ended⟩ := ih (recorded.call keeps.1 called) (keeps.2 after called)
          refine ⟨fun passed member => ?_, fun last finished => ?_⟩
          · simp only [CachedTree.passes, called, List.mem_cons] at member
            rcases member with rfl | member
            · exact recorded
            · exact passes passed member
          · simp only [CachedTree.run, called] at finished
            exact ended last finished

theorem Recorded.eachCall {b : CachedTree} {calls : List TreeCall} (recorded : b.Recorded)
    (agrees : ∀ passed ∈ b.passes calls, passed.RootAgrees) : b.EachCall KeepsRecord calls := by
  induction calls generalizing b with
  | nil => trivial
  | cons next rest ih =>
      have later : ∀ after, b.call next = some after →
          ∀ passed ∈ after.passes rest, passed.RootAgrees := fun after called passed member =>
        agrees passed (by simp [passes, called, member])
      have keeps : b.KeepsRecord next := by
        refine ⟨?_, fun after called root found =>
          (later after called after (after.passes_head rest) root found).1⟩
        cases called : b.call next with
        | none =>
            cases next with
            | remove id => cases called
            | insert key =>
                intro empty
                simp [CachedTree.call, bInsert, empty, createRoot] at called
        | some after =>
            exact recorded.draws called (later after called after (after.passes_head rest))
      exact ⟨keeps, fun after called => ih (recorded.call keeps called) (later after called)⟩

theorem run_mem_passes {b after : CachedTree} {calls : List TreeCall}
    (ended : b.run calls = some after) : after ∈ b.passes calls := by
  induction calls generalizing b with
  | nil =>
      cases ended
      exact List.mem_singleton.mpr rfl
  | cons next rest ih =>
      cases called : b.call next with
      | none => simp [CachedTree.run, called] at ended
      | some between =>
          simp only [CachedTree.run, called] at ended
          simp [passes, called, ih ended]

theorem bInsert_root (b : CachedTree) (id : CString) (rrn : Rrn) :
    (bInsert cachePager b id rrn).1.root ≠ none := by
  cases found : b.root with
  | none => simp [bInsert, found, createRoot]
  | some root =>
      rw [bInsert, found]
      dsimp only
      rw [finishInsert]
      split
      · simp [found]
      · simp only [growRoot]
        split_ifs <;> simp [found]

theorem insertions_root {b after : CachedTree} {built : List Key} (notEmpty : built ≠ [])
    (ended : b.run (built.map .insert) = some after) : after.root ≠ none := by
  induction built generalizing b with
  | nil => exact absurd rfl notEmpty
  | cons key rest ih =>
      cases called : b.call (.insert key) with
      | none => simp [CachedTree.run, called] at ended
      | some between =>
          simp only [List.map_cons, CachedTree.run, called] at ended
          rcases List.eq_nil_or_concat rest with rfl | ⟨front, last, rfl⟩
          · cases ended
            obtain ⟨status, _, rfl⟩ := Option.map_eq_some_iff.mp called
            exact bInsert_root b key.id key.dataRegisterRrn
          · exact ih (by simp) ended

theorem RootFirst.search {b : CachedTree} (first : b.RootFirst) (agrees : b.RootAgrees) :
    b.io.searchGq b.config.rootRrn = b.root := by
  obtain ⟨root, older, newer, found, queue, different⟩ := first
  have same := (agrees root found).2
  rw [found, NodeCache.searchGq, List.find?_eq_some_iff_append]
  refine ⟨by simpa using same, older, newer, queue, fun p member => ?_⟩
  rw [← same]
  simpa using different p member

theorem Recorded.reload_iff {b : CachedTree} {root : NodePtr} (recorded : b.Recorded)
    (agrees : b.RootAgrees) (found : b.root = some root) :
    b.reloadRoot.root = b.root ↔ b.RootFirst := by
  have named := recorded.named root found
  constructor
  · intro same
    rw [found] at same
    change (b.io.loadBtreeNode [] b.config.rootRrn).2 = some root at same
    rw [NodeCache.loadBtreeNode] at same
    split at same
    · cases same
    · rename_i bn search
      split_ifs at same
      · cases same
        rw [NodeCache.searchGq, List.find?_eq_some_iff_append] at search
        obtain ⟨rrn, older, newer, queue, different⟩ := search
        refine ⟨root, older, newer, found, queue, fun p member => ?_⟩
        rw [(agrees root found).2]
        simpa using different p member
      · split at same
        · cases same
        · cases same
          exact absurd named.old (lt_irrefl _)
  · intro first
    have search := first.search agrees
    rw [found] at search
    rw [reloadRoot, found]
    simp [cachePager, NodeCache.loadBtreeNode, search, named.notNull]

theorem RootFirst.reload {b : CachedTree} {root : NodePtr} (first : b.RootFirst)
    (recorded : b.Recorded) (agrees : b.RootAgrees) (found : b.root = some root) :
    b.reloadRoot = b := by
  have search := first.search agrees
  rw [found] at search
  obtain ⟨_, config, io⟩ := b
  cases found
  simp [reloadRoot, cachePager, NodeCache.loadBtreeNode, search, (recorded.named root rfl).notNull]

theorem fresh_recorded (config : BtreeConfig) (free : List Rrn) (ioFails : Nat → Bool) :
    (fresh config free ioFails).Recorded :=
  ⟨Nat.zero_lt_one, by simp [fresh], by simp [RootSpared, fresh]⟩

theorem fresh_reload (config : BtreeConfig) (free : List Rrn) (ioFails : Nat → Bool) :
    (fresh config free ioFails).reloadRoot.Recorded := by
  refine ⟨Nat.zero_lt_one, fun root found => ?_, fun root found => ?_⟩
  · cases found
  · cases found

/-- The condition on a life: every call keeps the record, and at the reload no older node in the
cache has the root's number. -/
structure RecordsRoot (start : CachedTree) (built : List Key) (calls : List TreeCall) : Prop where
  builds : start.EachCall KeepsRecord (built.map .insert)
  continues : ∀ b, start.run (built.map .insert) = some b →
    b.reloadRoot.EachCall KeepsRecord calls
  reloads : built ≠ [] → ∀ b, start.run (built.map .insert) = some b → b.RootFirst

section Life

variable {config : BtreeConfig} {free : List Rrn} {ioFails : Nat → Bool} {built : List Key}
  {calls : List TreeCall} {b : CachedTree}

theorem reload_recorded (ended : (fresh config free ioFails).run (built.map .insert) = some b)
    (recorded : b.Recorded) (agrees : b.RootAgrees) (first : built ≠ [] → b.RootFirst) :
    b.reloadRoot.Recorded := by
  by_cases empty : built = []
  · subst empty
    cases ended
    exact fresh_reload config free ioFails
  · obtain ⟨root, found⟩ := Option.ne_none_iff_exists'.mp (insertions_root empty ended)
    rwa [(first empty).reload recorded agrees found]

theorem build_mem_lifetime {start : CachedTree} (member : b ∈ start.passes (built.map .insert)) :
    b ∈ start.lifetime built calls :=
  List.mem_append_left _ member

theorem reload_mem_lifetime {start after : CachedTree}
    (ended : start.run (built.map .insert) = some b)
    (member : after ∈ b.reloadRoot.passes calls) : after ∈ start.lifetime built calls := by
  refine List.mem_append_right _ ?_
  rwa [ended]

end Life

end CachedTree

open CachedTree

/-- In every life of a tree the record of the root's number is right exactly under the condition. -/
theorem root_rrn_agrees_iff (config : BtreeConfig) (free : List Rrn) (ioFails : Nat → Bool)
    (built : List Key) (calls : List TreeCall) :
    ((∀ b ∈ (fresh config free ioFails).lifetime built calls, b.RootAgrees) ∧
        (fresh config free ioFails).ReloadsRoot built) ↔
      (fresh config free ioFails).RecordsRoot built calls := by
  have start := fresh_recorded config free ioFails
  constructor
  · rintro ⟨agrees, reloads⟩
    have builds := start.eachCall fun passed member => agrees passed (build_mem_lifetime member)
    have first : built ≠ [] → ∀ b, (fresh config free ioFails).run (built.map .insert) = some b →
        b.RootFirst := by
      intro notEmpty b ended
      obtain ⟨root, found⟩ := Option.ne_none_iff_exists'.mp (insertions_root notEmpty ended)
      have here := agrees b (build_mem_lifetime (run_mem_passes ended))
      exact (((start.run builds).2 b ended).reload_iff here found).mp (reloads notEmpty b ended)
    refine ⟨builds, fun b ended => ?_, first⟩
    have here := agrees b (build_mem_lifetime (run_mem_passes ended))
    have reloaded := reload_recorded ended ((start.run builds).2 b ended) here fun notEmpty =>
      first notEmpty b ended
    exact reloaded.eachCall fun passed member => agrees passed (reload_mem_lifetime ended member)
  · intro condition
    have agreesBuild : ∀ b ∈ (fresh config free ioFails).passes (built.map .insert),
        b.RootAgrees := fun b member => ((start.run condition.builds).1 b member).agrees
    refine ⟨fun b member => ?_, fun notEmpty b ended => ?_⟩
    · rcases List.mem_append.mp member with build | later
      · exact agreesBuild b build
      · split at later
        · cases later
        · rename_i last ended
          have reloaded := reload_recorded ended ((start.run condition.builds).2 last ended)
            (agreesBuild last (run_mem_passes ended)) fun notEmpty =>
              condition.reloads notEmpty last ended
          exact ((reloaded.run (condition.continues last ended)).1 b later).agrees
    · obtain ⟨root, found⟩ := Option.ne_none_iff_exists'.mp (insertions_root notEmpty ended)
      have here := agreesBuild b (run_mem_passes ended)
      exact (((start.run condition.builds).2 b ended).reload_iff here found).mpr
        (condition.reloads notEmpty b ended)

/-- Removing the only key puts its data record number on the free list of the index, and the next
root takes that number. -/
theorem second_root_unrecorded :
    ¬∀ b ∈ (fresh smallConfig [] fun _ => false).lifetime []
      [.insert ⟨singleId 97, 5⟩, .remove (singleId 97), .insert ⟨singleId 98, 6⟩],
      b.RootAgrees := by
  have last : ((fresh smallConfig [] fun _ => false).lifetime []
      [.insert ⟨singleId 97, 5⟩, .remove (singleId 97), .insert ⟨singleId 98, 6⟩]).getLast?.map
        (fun b => (b.root.map fun root => (b.io.node root).rrn, b.config.rootRrn)) =
      some (some 5, 0) := by decide +kernel
  intro agrees
  obtain ⟨b, found, same⟩ := Option.map_eq_some_iff.mp last
  simp only [Prod.mk.injEq] at same
  obtain ⟨root, rooted, number⟩ := Option.map_eq_some_iff.mp same.1
  have recorded := (agrees b (List.mem_of_getLast? found) root rooted).2
  rw [number, same.2] at recorded
  cases recorded

end Gaveta
